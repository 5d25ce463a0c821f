import Mathlib.Data.Finmap
import OpenkalMusl.Probing.Table
import OpenkalMusl.Threads.ContextTable
import OpenkalMusl.Transition.Answers

/-!
# The table of execution contexts as a finite map

The calls of `okm_context.c` one after another: a lookup runs to its answer before another context
makes a call. What a context records is kept under its identity; a release gives the identity up and
a rebinding moves what is under one identity to another. The table then answers as a finite map from
identities does, whatever entries were retired and taken again on the way.

## Main definitions

* `Find.finish`, `ContextStore.find`: a lookup to its answer
* `ContextStore.call`: the six calls of `okm_context.c`
* `ContextMap`, `ContextMap.call`: the same calls of a finite map
* `ContextMap.Room`: the identities a call may be made under, and their number

## Main results

* `finish_outcome`: what a lookup answers on a table that is sound
* `ContextStore.Represents.call`: one call keeps the table and the map together
* `answers_as_map`: the table answers every run of calls as the map does
-/

namespace OpenkalMusl

open Transition Probing

/-! ## The calls on the table -/

/-- The steps of a lookup that no other context interrupts, to its answer. -/
def Find.finish (keys : Fin okmContexts → BitVec 64) (me : BitVec 64) (create : Bool) :
    ℕ → Find → FindStep
  | 0, f => .more f
  | fuel + 1, f =>
    match f.next keys me create with
    | .more f' => Find.finish keys me create fuel f'
    | .done slot => .done slot
    | .take i => .take i

/-- The six calls of `okm_context.c`, each made by the context with the identity it is
made under. -/
inductive ContextCall where
  | getTp
  | setTp (value : ℕ)
  | getSelf
  | setSelf (value : ℕ)
  | release
  | rebind (source : BitVec 64)
  deriving DecidableEq

/-- What `kal_abort` is called for. -/
inductive ContextAbort where
  /-- "this execution context has no per-context state" -/
  | noState
  /-- "more execution contexts than this port can record" -/
  | tooMany
  deriving DecidableEq

/-- `g_slots` and `g_recorded`. -/
structure ContextStore where
  slots : Fin okmContexts → ContextSlot
  recorded : Bool

namespace ContextStore

/-- Static storage. -/
def start : ContextStore where
  slots := fun _ => {}
  recorded := false

def keys (s : ContextStore) (i : Fin okmContexts) : BitVec 64 := (s.slots i).key

def setSlot (s : ContextStore) (i : Fin okmContexts) (slot : ContextSlot) : ContextStore :=
  { s with slots := Function.update s.slots i slot }

/-- `find`: the entry it answers with, and the table in which it has perhaps taken it. -/
def find (s : ContextStore) (me : BitVec 64) (create : Bool) :
    Option (Fin okmContexts) × ContextStore :=
  match Find.finish s.keys me create (okmContexts + 3) (.probe 0 none) with
  | .take i => (some i, s.setSlot i { s.slots i with key := me })
  | .done slot => (slot, s)
  | .more _ => (none, s)

/-- `__okm_rebind_context` once the entry of its argument is retired and the caller's is looked
for: what was recorded is recorded there. -/
def rebound (r : Option (Fin okmContexts) × ContextStore) (tp self : ℕ) :
    Except ContextAbort (ContextStore × ℕ) :=
  let t := r.2
  match r.1 with
  | none => .error .tooMany
  | some now =>
    .ok ({ t.setSlot now { t.slots now with tp := tp, self := self } with recorded := true }, 0)

/-- One call made under the identity `c.1`, with what it returns (0 where it returns nothing). -/
def call (s : ContextStore) (c : BitVec 64 × ContextCall) :
    Except ContextAbort (ContextStore × ℕ) :=
  let me := keyOf c.1
  match c.2 with
  | .getTp =>
    match (s.find me false).1 with
    | some i => .ok (s, (s.slots i).tp)
    | none => if s.recorded then .error .noState else .ok (s, 0)
  | .setTp value =>
    let t := (s.find me true).2
    match (s.find me true).1 with
    | none => .error .tooMany
    | some i => .ok ({ t.setSlot i { t.slots i with tp := value } with recorded := true }, 0)
  | .getSelf =>
    match (s.find me false).1 with
    | some i => .ok (s, (s.slots i).self)
    | none => .ok (s, 0)
  | .setSelf value =>
    let t := (s.find me true).2
    match (s.find me true).1 with
    | none => .ok (t, 0)
    | some i => .ok (t.setSlot i { t.slots i with self := value }, 0)
  | .release =>
    match (s.find me false).1 with
    | none => .ok (s, 0)
    | some i => .ok (s.setSlot i { key := okmRetired }, 0)
  | .rebind source =>
    match (s.find (keyOf source) false).1 with
    | none => .ok (s, 0)
    | some was =>
      rebound ((s.setSlot was { key := okmRetired }).find me true) (s.slots was).tp
        (s.slots was).self

end ContextStore

/-! ## The finite map -/

/-- What is recorded of a context. -/
structure ContextEntry where
  tp : ℕ := 0
  self : ℕ := 0
  deriving DecidableEq

/-- The registered identities with what is recorded of each, and whether anything was. -/
structure ContextMap where
  entries : Finmap fun _ : BitVec 64 => ContextEntry
  recorded : Bool

namespace ContextMap

def start : ContextMap := ⟨∅, false⟩

/-- What is recorded under an identity, zeros where it is not registered. -/
def entry (m : ContextMap) (identity : BitVec 64) : ContextEntry :=
  (m.entries.lookup identity).getD {}

/-- One call of the map, which is never full. -/
def call (m : ContextMap) (c : BitVec 64 × ContextCall) : Except ContextAbort (ContextMap × ℕ) :=
  let me := c.1
  match c.2 with
  | .getTp =>
    match m.entries.lookup me with
    | some e => .ok (m, e.tp)
    | none => if m.recorded then .error .noState else .ok (m, 0)
  | .setTp value => .ok (⟨m.entries.insert me { m.entry me with tp := value }, true⟩, 0)
  | .getSelf => .ok (m, (m.entry me).self)
  | .setSelf value => .ok (⟨m.entries.insert me { m.entry me with self := value }, m.recorded⟩, 0)
  | .release => .ok (⟨m.entries.erase me, m.recorded⟩, 0)
  | .rebind source =>
    match m.entries.lookup source with
    | none => .ok (m, 0)
    | some e => .ok (⟨(m.entries.erase source).insert me e, true⟩, 0)

/-- The two words of which no identity can be told: the one of a retired entry, and the one that
stands for the identity zero. -/
def Reserved (identity : BitVec 64) : Prop := identity = okmRetired ∨ identity = okmZero

instance (identity : BitVec 64) : Decidable (Reserved identity) :=
    inferInstanceAs (Decidable (_ ∨ _))

/-- A rebinding names a second identity. -/
def NamesReserved : ContextCall → Prop
  | .rebind source => Reserved source
  | _ => False

instance (op : ContextCall) : Decidable (NamesReserved op) := by
  unfold NamesReserved
  split <;> infer_instance

/-- A call is made under an identity that is not reserved, names none that is, and finds at most
`OKM_CONTEXTS` identities with the caller's. -/
def Room (m : ContextMap) (c : BitVec 64 × ContextCall) : Prop :=
  ¬ Reserved c.1 ∧ ¬ NamesReserved c.2 ∧
    (insert c.1 m.entries.keys).card ≤ okmContexts

instance (m : ContextMap) (c : BitVec 64 × ContextCall) : Decidable (m.Room c) :=
  inferInstanceAs (Decidable (_ ∧ _ ∧ _))

end ContextMap

/-! ## What a lookup answers -/

/-- The table's probes: every entry is on each. -/
def contextScheme : Scheme (Fin okmContexts) (BitVec 64) where
  probe := probeAt
  bound := okmContexts
  vacant := 0
  retired := okmRetired
  vacant_ne_retired := by decide
  covers := Find.exists_probeAt

section Lookup

variable {keys : Fin okmContexts → BitVec 64} {me : BitVec 64} {create : Bool}

/-- What a lookup for `me` may answer. -/
def Answers (keys : Fin okmContexts → BitVec 64) (me : BitVec 64) (create : Bool) :
    FindStep → Prop
  | .more _ => False
  | .done (some i) => keys i = me
  | .done none => (∀ j, keys j ≠ me) ∧ (create = true → ∀ j, Live (keys j))
  | .take i => create = true ∧ (∀ j, keys j ≠ me) ∧ ¬ Live (keys i) ∧
      ∃ n < okmContexts, probeAt me n = i ∧ contextScheme.Passed keys me n

/-- A lookup on its way: what it has passed is neither its key nor vacant, and it remembers the
first retired entry of what it has passed. -/
def OnWay (keys : Fin okmContexts → BitVec 64) (me : BitVec 64) (n : ℕ) :
    Option (Fin okmContexts) → Prop
  | none => n ≤ okmContexts ∧ (∀ m < n, keys (probeAt me m) ≠ me) ∧
      ∀ m < n, Live (keys (probeAt me m))
  | some i => n ≤ okmContexts ∧ (∀ m < n, keys (probeAt me m) ≠ me) ∧
      contextScheme.Passed keys me n ∧ ∃ m < n, probeAt me m = i ∧ keys i = okmRetired

theorem OnWay.le {n : ℕ} {free : Option (Fin okmContexts)} (h : OnWay keys me n free) :
    n ≤ okmContexts := by
  cases free <;> exact h.1

theorem OnWay.missed {n : ℕ} {free : Option (Fin okmContexts)} (h : OnWay keys me n free) :
    ∀ m < n, keys (probeAt me m) ≠ me := by
  cases free <;> exact h.2.1

theorem OnWay.passed {n : ℕ} {free : Option (Fin okmContexts)} (h : OnWay keys me n free) :
    contextScheme.Passed keys me n := by
  cases free with
  | none => exact fun m hm => (h.2.2 m hm).1
  | some i => exact h.2.2.1

/-- The next entry is passed. -/
theorem OnWay.next {n : ℕ} {free : Option (Fin okmContexts)} (h : OnWay keys me n free)
    (hn : n < okmContexts) (hme : keys (probeAt me n) ≠ me) (hzero : keys (probeAt me n) ≠ 0) :
    OnWay keys me (n + 1)
      (if keys (probeAt me n) = okmRetired ∧ free = none then some (probeAt me n) else free) := by
  have hmissed : ∀ m < n + 1, keys (probeAt me m) ≠ me := by
    intro m hm
    rcases Nat.lt_succ_iff_lt_or_eq.mp hm with hm | rfl
    · exact h.missed m hm
    · exact hme
  have hpassed : contextScheme.Passed keys me (n + 1) := by
    intro m hm
    rcases Nat.lt_succ_iff_lt_or_eq.mp hm with hm | rfl
    · exact h.passed m hm
    · exact hzero
  split_ifs with hret
  · exact ⟨hn, hmissed, hpassed, n, Nat.lt_succ_self n, rfl, hret.1⟩
  · cases free with
    | some i =>
      obtain ⟨m, hm, hi⟩ := h.2.2.2
      exact ⟨hn, hmissed, hpassed, m, Nat.lt_succ_of_lt hm, hi⟩
    | none =>
      refine ⟨hn, hmissed, fun m hm => ?_⟩
      rcases Nat.lt_succ_iff_lt_or_eq.mp hm with hm | rfl
      · exact h.2.2 m hm
      · exact ⟨hzero, fun hr => hret ⟨hr, rfl⟩⟩

theorem finish_succ (fuel : ℕ) (f : Find) :
    Find.finish keys me create (fuel + 1) f =
      match f.next keys me create with
      | .more f' => Find.finish keys me create fuel f'
      | .done slot => .done slot
      | .take i => .take i := rfl

/-- The entry a creating lookup has remembered is taken when nothing comes in between. -/
theorem finish_reload {i : Fin okmContexts} {fuel : ℕ} (hdead : ¬ Live (keys i))
    (hme : keys i ≠ me) : Find.finish keys me create (fuel + 2) (.reload i) = .take i := by
  simp [Find.finish, Find.next, hme, hdead]

/-- **What a lookup answers**, from any of its loads on. -/
theorem finish_outcome (h : contextScheme.Sound keys) (hme : Live me) {n fuel : ℕ}
    {free : Option (Fin okmContexts)} (hway : OnWay keys me n free)
    (hfuel : okmContexts + 3 ≤ fuel + n) :
    Answers keys me create (Find.finish keys me create fuel (.probe n free)) := by
  -- by induction on the loads that are left
  induction hk : okmContexts - n generalizing n fuel free with
  | zero =>
    have hn : n = okmContexts := by
      have := hway.le
      omega
    subst hn
    obtain ⟨fuel, rfl⟩ : ∃ f, fuel = f + 2 + 1 := ⟨fuel - 3, by omega⟩
    have habsent : ∀ j, keys j ≠ me := h.absent hme hway.missed (Or.inl le_rfl)
    rw [finish_succ]
    simp only [Find.next, lt_irrefl, if_false]
    cases create with
    | false => exact ⟨habsent, fun h => absurd h Bool.false_ne_true⟩
    | true =>
      cases free with
      | none =>
        -- the whole table was passed and every entry was live
        refine ⟨habsent, fun _ j => ?_⟩
        obtain ⟨m, hm, rfl⟩ := Find.exists_probeAt me j
        exact hway.2.2 m hm
      | some i =>
        obtain ⟨m, hm, rfl, hret⟩ := hway.2.2.2
        have hdead : ¬ Live (keys (probeAt me m)) := fun hl => hl.2 hret
        simp only [if_true, finish_reload hdead (habsent _)]
        exact ⟨rfl, habsent, hdead, m, hm, rfl, fun k hk => hway.passed k (by omega)⟩
  | succ k ih =>
    have hn : n < okmContexts := by omega
    obtain ⟨fuel, rfl⟩ : ∃ f, fuel = f + 2 + 1 := ⟨fuel - 3, by omega⟩
    rw [finish_succ]
    simp only [Find.next, hn, if_true]
    by_cases hkey : keys (probeAt me n) = me
    · simp only [hkey, if_true]
      exact hkey
    · rw [if_neg hkey]
      by_cases hzero : keys (probeAt me n) = 0
      · -- a vacant entry ends the probe
        rw [if_pos hzero]
        have habsent : ∀ j, keys j ≠ me := h.absent hme hway.missed (Or.inr hzero)
        cases create with
        | false => exact ⟨habsent, fun h => absurd h Bool.false_ne_true⟩
        | true =>
          cases free with
          | none =>
            have hdead : ¬ Live (keys (probeAt me n)) := fun hl => hl.1 hzero
            simp only [if_true, Option.getD_none, finish_reload hdead hkey]
            exact ⟨rfl, habsent, hdead, n, hn, rfl, hway.passed⟩
          | some i =>
            obtain ⟨m, hm, rfl, hret⟩ := hway.2.2.2
            have hdead : ¬ Live (keys (probeAt me m)) := fun hl => hl.2 hret
            simp only [if_true, Option.getD_some, finish_reload hdead (habsent _)]
            exact ⟨rfl, habsent, hdead, m, by omega, rfl, fun k hk => hway.passed k (by omega)⟩
      · rw [if_neg hzero]
        exact ih (hway.next hn hkey hzero) (by omega) (by omega)

end Lookup

/-! ## The table and the map -/

open ContextMap

theorem live_keyOf {identity : BitVec 64} (h : ¬ Reserved identity) : Live (keyOf identity) := by
  refine ⟨ContextTable.keyOf_ne_zero identity, fun hr => ?_⟩
  unfold keyOf at hr
  split_ifs at hr
  · exact h (Or.inl hr)
  · exact absurd hr (by decide)

/-- Two identities that are not reserved have two keys, zero among them. -/
theorem keyOf_inj {a b : BitVec 64} (ha : ¬ Reserved a) (hb : ¬ Reserved b)
    (h : keyOf a = keyOf b) : a = b := by
  unfold keyOf at h
  split_ifs at h with hza hzb hzb
  · exact h
  · exact absurd (Or.inr h) ha
  · exact absurd (Or.inr h.symm) hb
  · rw [not_not] at hza hzb
    rw [hza, hzb]

namespace ContextStore

def entryAt (s : ContextStore) (i : Fin okmContexts) : ContextEntry :=
  ⟨(s.slots i).tp, (s.slots i).self⟩

/-- The table is sound, holds exactly what the map does, and keeps zeros where it holds nothing. -/
structure Represents (s : ContextStore) (m : ContextMap) : Prop where
  sound : contextScheme.Sound s.keys
  named : ∀ i, Live (s.keys i) → ∃ a, ¬ Reserved a ∧ s.keys i = keyOf a
  held : ∀ a i, ¬ Reserved a → s.keys i = keyOf a → m.entries.lookup a = some (s.entryAt i)
  kept : ∀ a, a ∈ m.entries → ¬ Reserved a ∧ ∃ i, s.keys i = keyOf a
  clear : ∀ i, ¬ Live (s.keys i) → s.entryAt i = {}
  recorded : s.recorded = m.recorded

theorem represents_start : Represents start ContextMap.start where
  sound := Scheme.sound_vacant
  named _ h := absurd rfl h.1
  held a _ _ h := absurd h.symm (ContextTable.keyOf_ne_zero a)
  kept _ h := absurd h Finmap.notMem_empty
  clear _ _ := rfl
  recorded := rfl

theorem keys_setSlot (s : ContextStore) (i : Fin okmContexts) (slot : ContextSlot) :
    (s.setSlot i slot).keys = Function.update s.keys i slot.key := by
  funext j
  by_cases hj : j = i
  · subst hj
    simp [keys, setSlot]
  · simp [keys, setSlot, hj]

theorem entryAt_setSlot (s : ContextStore) (i : Fin okmContexts) (slot : ContextSlot) :
    (s.setSlot i slot).entryAt = Function.update s.entryAt i ⟨slot.tp, slot.self⟩ := by
  funext j
  by_cases hj : j = i
  · subst hj
    simp [entryAt, setSlot]
  · simp [entryAt, setSlot, hj]

namespace Represents

variable {s : ContextStore} {m : ContextMap} {a : BitVec 64} {i : Fin okmContexts}

/-- The key of one identity is in one entry. -/
theorem eq_of_key (h : s.Represents m) (ha : ¬ Reserved a) (hi : s.keys i = keyOf a)
    {j : Fin okmContexts} (hj : s.keys j = keyOf a) : j = i := by
  refine h.sound.unique j i ?_ (by rw [hi, hj])
  rw [hj]
  exact live_keyOf ha

theorem lookup_eq_none (h : s.Represents m) (habsent : ∀ j, s.keys j ≠ keyOf a) :
    m.entries.lookup a = none := by
  rw [Finmap.lookup_eq_none]
  intro hmem
  obtain ⟨-, i, hi⟩ := h.kept a hmem
  exact habsent i hi

/-- **An entry written** under its identity. -/
theorem write (h : s.Represents m) (ha : ¬ Reserved a) (hi : s.keys i = keyOf a)
    (e : ContextEntry) (r : Bool) :
    Represents { s.setSlot i { s.slots i with tp := e.tp, self := e.self } with recorded := r }
      ⟨m.entries.insert a e, r⟩ := by
  let t : ContextStore :=
    { s.setSlot i { s.slots i with tp := e.tp, self := e.self } with recorded := r }
  have hkeys : t.keys = s.keys :=
    (keys_setSlot s i _).trans (Function.update_eq_self i s.keys)
  have hentry : t.entryAt = Function.update s.entryAt i e := entryAt_setSlot s i _
  show t.Represents _
  constructor
  · rw [hkeys]
    exact h.sound
  · rw [hkeys]
    exact h.named
  · intro b j hb hj
    rw [hkeys] at hj
    rw [hentry]
    by_cases hba : b = a
    · subst hba
      rw [h.eq_of_key hb hi hj, Function.update_self]
      exact Finmap.lookup_insert _
    · have hji : j ≠ i := by
        rintro rfl
        exact hba (keyOf_inj hb ha (hj.symm.trans hi))
      rw [Function.update_of_ne hji]
      exact (Finmap.lookup_insert_of_ne _ hba).trans (h.held b j hb hj)
  · intro b hb
    rw [hkeys]
    rcases Finmap.mem_insert.mp hb with rfl | hb
    · exact ⟨ha, i, hi⟩
    · exact h.kept b hb
  · intro j hj
    rw [hkeys] at hj
    have hji : j ≠ i := by
      rintro rfl
      rw [hi] at hj
      exact hj (live_keyOf ha)
    rw [hentry, Function.update_of_ne hji]
    exact h.clear j hj
  · rfl

/-- **An entry taken** for an identity that is not registered: it is registered with zeros. -/
theorem take (h : s.Represents m) (ha : ¬ Reserved a) (habsent : ∀ j, s.keys j ≠ keyOf a)
    (hdead : ¬ Live (s.keys i)) {n : ℕ} (hn : n < okmContexts) (hprobe : probeAt (keyOf a) n = i)
    (hpass : contextScheme.Passed s.keys (keyOf a) n) :
    Represents (s.setSlot i { s.slots i with key := keyOf a })
      ⟨m.entries.insert a {}, m.recorded⟩ := by
  have hkeys := keys_setSlot s i { s.slots i with key := keyOf a }
  have hentry : (s.setSlot i { s.slots i with key := keyOf a }).entryAt = s.entryAt :=
    (entryAt_setSlot s i _).trans (Function.update_eq_self i s.entryAt)
  constructor
  · rw [hkeys]
    subst hprobe
    exact h.sound.take (live_keyOf ha) habsent hn hpass
  · intro j hj
    rw [hkeys] at hj ⊢
    by_cases hji : j = i
    · subst hji
      exact ⟨a, ha, Function.update_self j _ s.keys⟩
    · rw [Function.update_of_ne hji] at hj ⊢
      exact h.named j hj
  · intro b j hb hj
    rw [hkeys] at hj
    rw [hentry]
    by_cases hji : j = i
    · -- the entry was not live, so that it holds zeros
      subst hji
      rw [Function.update_self] at hj
      rw [← keyOf_inj ha hb hj, h.clear j hdead]
      exact Finmap.lookup_insert _
    · rw [Function.update_of_ne hji] at hj
      have hba : b ≠ a := by
        rintro rfl
        exact habsent j hj
      exact (Finmap.lookup_insert_of_ne _ hba).trans (h.held b j hb hj)
  · intro b hb
    rw [hkeys]
    rcases Finmap.mem_insert.mp hb with rfl | hb
    · exact ⟨ha, i, Function.update_self i _ s.keys⟩
    · obtain ⟨hb, j, hj⟩ := h.kept b hb
      refine ⟨hb, j, ?_⟩
      have hji : j ≠ i := by
        rintro rfl
        rw [hj] at hdead
        exact hdead (live_keyOf hb)
      rwa [Function.update_of_ne hji]
  · intro j hj
    rw [hkeys] at hj
    rw [hentry]
    by_cases hji : j = i
    · subst hji
      exact h.clear j hdead
    · rw [Function.update_of_ne hji] at hj
      exact h.clear j hj
  · exact h.recorded

/-- **An entry retired**: its identity is no longer registered. -/
theorem retire (h : s.Represents m) (ha : ¬ Reserved a) (hi : s.keys i = keyOf a) :
    Represents (s.setSlot i { key := okmRetired }) ⟨m.entries.erase a, m.recorded⟩ := by
  have hkeys := keys_setSlot s i { key := okmRetired }
  have hentry := entryAt_setSlot s i { key := okmRetired }
  have hretired : ¬ Live okmRetired := fun hl => hl.2 rfl
  constructor
  · rw [hkeys]
    exact h.sound.retire i
  · intro j hj
    rw [hkeys] at hj ⊢
    by_cases hji : j = i
    · rw [hji, Function.update_self] at hj
      exact absurd hj hretired
    · rw [Function.update_of_ne hji] at hj ⊢
      exact h.named j hj
  · intro b j hb hj
    rw [hkeys] at hj
    by_cases hji : j = i
    · rw [hji, Function.update_self] at hj
      have hl := live_keyOf hb
      rw [← hj] at hl
      exact absurd hl hretired
    · rw [Function.update_of_ne hji] at hj
      have hba : b ≠ a := by
        rintro rfl
        exact hji (h.eq_of_key hb hi hj)
      rw [hentry, Function.update_of_ne hji]
      exact (Finmap.lookup_erase_ne hba).trans (h.held b j hb hj)
  · intro b hb
    obtain ⟨hba, hb⟩ := Finmap.mem_erase.mp hb
    obtain ⟨hb, j, hj⟩ := h.kept b hb
    refine ⟨hb, j, ?_⟩
    have hji : j ≠ i := by
      rintro rfl
      exact hba (keyOf_inj hb ha (hj.symm.trans hi))
    rw [hkeys, Function.update_of_ne hji]
    exact hj
  · intro j hj
    rw [hkeys] at hj
    rw [hentry]
    by_cases hji : j = i
    · rw [hji, Function.update_self]
    · rw [Function.update_of_ne hji] at hj ⊢
      exact h.clear j hj
  · exact h.recorded

/-- A lookup that does not create finds the entry of a registered identity, and none of another. -/
theorem find_false (h : s.Represents m) (ha : ¬ Reserved a) :
    (∃ i, (s.find (keyOf a) false).1 = some i ∧ s.keys i = keyOf a) ∨
      (s.find (keyOf a) false).1 = none ∧ ∀ j, s.keys j ≠ keyOf a := by
  have hout : Answers s.keys (keyOf a) false
      (Find.finish s.keys (keyOf a) false (okmContexts + 3) (.probe 0 none)) :=
    finish_outcome h.sound (live_keyOf ha) ⟨Nat.zero_le _, nofun, nofun⟩ le_rfl
  unfold find
  revert hout
  cases Find.finish s.keys (keyOf a) false (okmContexts + 3) (.probe 0 none) with
  | more f => exact False.elim
  | take i => exact fun hout => absurd hout.1 (by decide)
  | done slot =>
    cases slot with
    | some i => exact fun hout => Or.inl ⟨i, rfl, hout⟩
    | none => exact fun hout => Or.inr ⟨rfl, hout.1⟩

/-- An identity that has room and is not registered finds an entry to take. -/
theorem exists_not_live (h : s.Represents m) (habsent : a ∉ m.entries)
    (hroom : (insert a m.entries.keys).card ≤ okmContexts) : ∃ i, ¬ Live (s.keys i) := by
  classical
  -- each live entry is one of the registered identities
  let name : Fin okmContexts → BitVec 64 := fun i =>
    if hl : Live (s.keys i) then (h.named i hl).choose else 0
  have hname : ∀ i, Live (s.keys i) → ¬ Reserved (name i) ∧ s.keys i = keyOf (name i) := by
    intro i hl
    have : name i = (h.named i hl).choose := dif_pos hl
    rw [this]
    exact (h.named i hl).choose_spec
  refine h.sound.exists_not_live (s := m.entries.keys) name ?_ ?_ ?_
  · intro i hl
    obtain ⟨hres, hkey⟩ := hname i hl
    exact Finmap.mem_keys.mpr (Finmap.mem_of_lookup_eq_some (h.held _ i hres hkey))
  · intro i j hi hj hij
    rw [(hname i hi).2, (hname j hj).2, hij]
  · rw [Fintype.card_fin]
    rw [Finset.card_insert_of_notMem (fun hmem => habsent (Finmap.mem_keys.mp hmem))] at hroom
    omega

/-- A lookup that creates answers with the entry of its identity, which is then registered. -/
theorem find_true (h : s.Represents m) (ha : ¬ Reserved a)
    (hroom : (insert a m.entries.keys).card ≤ okmContexts) :
    ∃ i, (s.find (keyOf a) true).1 = some i ∧ (s.find (keyOf a) true).2.keys i = keyOf a ∧
      (s.find (keyOf a) true).2.Represents ⟨m.entries.insert a (m.entry a), m.recorded⟩ := by
  have hout : Answers s.keys (keyOf a) true
      (Find.finish s.keys (keyOf a) true (okmContexts + 3) (.probe 0 none)) :=
    finish_outcome h.sound (live_keyOf ha) ⟨Nat.zero_le _, nofun, nofun⟩ le_rfl
  unfold find
  revert hout
  cases Find.finish s.keys (keyOf a) true (okmContexts + 3) (.probe 0 none) with
  | more f => exact False.elim
  | take i =>
    rintro ⟨-, habsent, hdead, n, hn, hprobe, hpass⟩
    have hnone : m.entry a = {} := by
      unfold ContextMap.entry
      rw [h.lookup_eq_none habsent]
      rfl
    refine ⟨i, rfl, ?_, ?_⟩
    · show (s.setSlot i _).keys i = _
      rw [keys_setSlot, Function.update_self]
    · rw [hnone]
      exact h.take ha habsent hdead hn hprobe hpass
  | done slot =>
    cases slot with
    | some i =>
      intro hi
      refine ⟨i, rfl, hi, ?_⟩
      -- its own entry, registered before
      have hsame : m.entries.insert a (m.entry a) = m.entries := by
        apply Finmap.ext_lookup
        intro b
        by_cases hba : b = a
        · subst hba
          rw [Finmap.lookup_insert, ContextMap.entry, h.held b i ha hi, Option.getD_some]
        · rw [Finmap.lookup_insert_of_ne _ hba]
      rw [hsame]
      exact h
    | none =>
      rintro ⟨habsent, hfull⟩
      obtain ⟨i, hi⟩ :=
        h.exists_not_live (Finmap.lookup_eq_none.mp (h.lookup_eq_none habsent)) hroom
      exact absurd (hfull rfl i) hi

/-- What a call records under its identity, where its lookup creates. -/
theorem record (h : s.Represents m) (ha : ¬ Reserved a)
    (hroom : (insert a m.entries.keys).card ≤ okmContexts) :
    ∃ i t, s.find (keyOf a) true = (some i, t) ∧ t.entryAt i = m.entry a ∧
      t.recorded = m.recorded ∧ ∀ e r,
        Represents { t.setSlot i { t.slots i with tp := e.tp, self := e.self } with recorded := r }
          ⟨m.entries.insert a e, r⟩ := by
  obtain ⟨i, hslot, hkey, hrep⟩ := h.find_true ha hroom
  refine ⟨i, _, Prod.ext hslot rfl, ?_, hrep.recorded, fun e r => ?_⟩
  · have hheld := hrep.held a i ha hkey
    rw [Finmap.lookup_insert] at hheld
    exact (Option.some.inj hheld).symm
  · have hwrite := hrep.write ha hkey e r
    rwa [Finmap.insert_insert] at hwrite

/-- The identities after one is given up and the caller's is registered are no more than before. -/
theorem room_rebind (source : BitVec 64)
    (hroom : (insert a m.entries.keys).card ≤ okmContexts) :
    (insert a (m.entries.erase source).keys).card ≤ okmContexts := by
  refine le_trans (Finset.card_le_card ?_) hroom
  rw [Finmap.keys_erase]
  exact Finset.insert_subset_insert a (Finset.erase_subset source _)

/-- **One call** of the table and of the map: the same answer, and the table still represents the
map. -/
theorem call (h : s.Represents m) {c : BitVec 64 × ContextCall} (hc : m.Room c) :
    Alike Represents (s.call c) (m.call c) := by
  obtain ⟨a, op⟩ := c
  obtain ⟨ha, hsource, hroom⟩ := hc
  cases op with
  | getTp =>
    rcases h.find_false ha with ⟨i, hfind, hi⟩ | ⟨hfind, habsent⟩
    · simp only [ContextStore.call, ContextMap.call, hfind, h.held a i ha hi]
      exact ⟨rfl, h⟩
    · simp only [ContextStore.call, ContextMap.call, hfind, h.lookup_eq_none habsent, h.recorded]
      split_ifs
      · rfl
      · exact ⟨rfl, h⟩
  | setTp value =>
    obtain ⟨i, t, hfind, hentry, -, hwrite⟩ := h.record ha hroom
    simp only [ContextStore.call, ContextMap.call, hfind]
    refine ⟨rfl, ?_⟩
    have := hwrite { m.entry a with tp := value } true
    rwa [← hentry] at this ⊢
  | getSelf =>
    rcases h.find_false ha with ⟨i, hfind, hi⟩ | ⟨hfind, habsent⟩
    · simp only [ContextStore.call, ContextMap.call, ContextMap.entry, hfind, h.held a i ha hi]
      exact ⟨rfl, h⟩
    · simp only [ContextStore.call, ContextMap.call, ContextMap.entry, hfind,
        h.lookup_eq_none habsent]
      exact ⟨rfl, h⟩
  | setSelf value =>
    obtain ⟨i, t, hfind, hentry, hrec, hwrite⟩ := h.record ha hroom
    simp only [ContextStore.call, ContextMap.call, hfind]
    refine ⟨rfl, ?_⟩
    have := hwrite { m.entry a with self := value } m.recorded
    rw [← hentry, ← hrec] at this ⊢
    exact this
  | release =>
    rcases h.find_false ha with ⟨i, hfind, hi⟩ | ⟨hfind, habsent⟩
    · simp only [ContextStore.call, ContextMap.call, hfind]
      exact ⟨rfl, h.retire ha hi⟩
    · simp only [ContextStore.call, ContextMap.call, hfind]
      have hnone := h.lookup_eq_none habsent
      have hsame : m.entries.erase a = m.entries := by
        apply Finmap.ext_lookup
        intro b
        by_cases hba : b = a
        · rw [hba, Finmap.lookup_erase, hnone]
        · rw [Finmap.lookup_erase_ne hba]
      rw [hsame]
      exact ⟨rfl, h⟩
  | rebind source =>
    have hs : ¬ Reserved source := hsource
    rcases h.find_false hs with ⟨was, hfind, hwas⟩ | ⟨hfind, habsent⟩
    · have hheld := h.held source was hs hwas
      obtain ⟨now, t, hfind', -, -, hwrite⟩ := (h.retire hs hwas).record ha
        (room_rebind source hroom)
      have hcall : s.call (a, .rebind source) =
          rebound ((s.setSlot was { key := okmRetired }).find (keyOf a) true) (s.slots was).tp
            (s.slots was).self := by
        simp only [ContextStore.call, hfind]
      rw [hcall, hfind']
      simp only [ContextMap.call, hheld, rebound]
      exact ⟨rfl, hwrite (s.entryAt was) true⟩
    · simp only [ContextStore.call, ContextMap.call, hfind, h.lookup_eq_none habsent]
      exact ⟨rfl, h⟩

/-- A lookup is one of the map. -/
theorem lookup_find (h : s.Represents m) (ha : ¬ Reserved a) :
    (s.find (keyOf a) false).1.map s.entryAt = m.entries.lookup a := by
  rcases h.find_false ha with ⟨i, hfind, hi⟩ | ⟨hfind, habsent⟩
  · rw [hfind, h.held a i ha hi]
    rfl
  · rw [hfind, h.lookup_eq_none habsent]
    rfl

end Represents

/-- What is said of a table beside a map: a lookup under an identity finds what the map has there,
a creating one an entry wherever there is room; no key is twice in the table, and every key is
reached from where its probe begins through entries that are not free. -/
structure IsMap (s : ContextStore) (m : ContextMap) : Prop where
  lookup : ∀ a, ¬ Reserved a → (s.find (keyOf a) false).1.map s.entryAt = m.entries.lookup a
  create : ∀ a, ¬ Reserved a → (insert a m.entries.keys).card ≤ okmContexts →
    (s.find (keyOf a) true).1.isSome
  unique : ∀ i j, Live (s.keys i) → s.keys i = s.keys j → i = j
  reach : ∀ i, Live (s.keys i) → ∃ n < okmContexts, probeAt (s.keys i) n = i ∧
    ∀ k < n, s.keys (probeAt (s.keys i) k) ≠ 0

theorem Represents.isMap {s : ContextStore} {m : ContextMap} (h : s.Represents m) : s.IsMap m where
  lookup _ ha := h.lookup_find ha
  create a ha hroom := by
    obtain ⟨i, hi, -⟩ := h.find_true ha hroom
    rw [hi]
    rfl
  unique := h.sound.unique
  reach := h.sound.reach

end ContextStore

/-- The map aborts only a context that asks for what it has not recorded. -/
theorem ContextMap.call_ne_tooMany (m : ContextMap) (c : BitVec 64 × ContextCall) :
    m.call c ≠ .error .tooMany := by
  obtain ⟨a, op⟩ := c
  cases op with
  | getTp =>
    simp only [ContextMap.call]
    cases m.entries.lookup a with
    | none => cases m.recorded <;> simp
    | some e => simp
  | rebind source =>
    simp only [ContextMap.call]
    cases m.entries.lookup source <;> simp
  | setTp value => simp [ContextMap.call]
  | getSelf => simp [ContextMap.call]
  | setSelf value => simp [ContextMap.call]
  | release => simp [ContextMap.call]

/-- **The table of contexts answers as a finite map**, call by call, and is one after every run: for
every run of calls under identities that are not reserved, of which at most `OKM_CONTEXTS` are
registered with the caller's. No call finds the table full. -/
theorem answers_as_map (calls : List (BitVec 64 × ContextCall))
    (h : Allowed ContextMap.call ContextMap.Room ContextMap.start calls) :
    (performs ContextStore.call ContextStore.start calls).1 =
        (performs ContextMap.call ContextMap.start calls).1 ∧
      EndAlike ContextStore.IsMap (performs ContextStore.call ContextStore.start calls).2
        (performs ContextMap.call ContextMap.start calls).2 ∧
      (performs ContextStore.call ContextStore.start calls).2 ≠ .error .tooMany := by
  have hstep : ∀ s m c, ContextStore.Represents s m → ContextMap.Room m c →
      Alike ContextStore.Represents (s.call c) (m.call c) := fun _ _ _ hR hg => hR.call hg
  obtain ⟨hans, hend⟩ := performs_alike hstep ContextStore.represents_start h
  refine ⟨hans, hend.mono fun _ _ hR => hR.isMap, fun herr => ?_⟩
  rw [herr] at hend
  cases hm : (performs ContextMap.call ContextMap.start calls).2 with
  | ok m =>
    rw [hm] at hend
    exact hend
  | error e =>
    rw [hm] at hend
    obtain rfl : ContextAbort.tooMany = e := hend
    obtain ⟨m, c, hc⟩ := performs_eq_error hm
    exact ContextMap.call_ne_tooMany m c hc

/-- The identity zero, an identity released, and a record moved to an identity of its own. -/
theorem answers_as_map_rebound :
    (performs ContextStore.call ContextStore.start
      [(0, .setTp 4096), (7, .setTp 8192), (7, .setSelf 3), (0, .getTp), (0, .release),
        (9, .rebind 7), (9, .getTp), (0, .getSelf)]).1 = [0, 0, 0, 4096, 0, 0, 8192, 0] :=
  (answers_as_map _ (by decide +kernel)).1.trans (by decide +kernel)

end OpenkalMusl
