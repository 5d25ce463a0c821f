import Mathlib.Data.Fintype.Pi
import Mathlib.Data.Nat.Notation
import OpenkalMusl.Transition.Run

/-!
# The table of execution contexts

`okm_context.c`: an open-addressed table of what belongs to one context, keyed on the identity
openkal gives it. A lookup probes from where its key is dispersed to; one that creates remembers the
first entry that is free or retired and takes it with one compare-and-exchange. A context that ends
retires its entry. Any number of contexts interleave the loads of keys, the compare-and-exchanges
and the stores of these functions.

A lookup whose compare-and-exchange is lost does not look again: the context that lost aborts with
the message of a full table, however empty the table is. No context aborts in a run whose
compare-and-exchanges leave every other context inside `__okm_set_tp` what it has remembered, or,
where it has remembered nothing, an entry ahead of its probe.

## Main definitions

* `Find`, `Find.next`: a lookup, and its next atomic step
* `ContextTable.step`: the contexts on the table
* `ContextTable.Spares`: the steps that leave other contexts an entry

## Main results

* `Find.good_next`: a lookup that has an entry left comes nearer to it
* `never_aborts`: no context aborts in a run whose steps spare the others, and each obtains an entry
  after a bounded number of its own steps
* `aborts_below_bound`: two contexts of which one aborts
-/

namespace OpenkalMusl

open Transition

def okmContexts : ℕ := 512

/-- The key of a retired entry. -/
def okmRetired : BitVec 64 := BitVec.allOnes 64

/-- The key of the identity zero, which is the table's word for a free entry. -/
def okmZero : BitVec 64 := 0xFFFFFFFFFFFFFFFE

def keyOf (identity : BitVec 64) : BitVec 64 := if identity ≠ 0 then identity else okmZero

/-- Where a key's probe begins. -/
def startAt (key : BitVec 64) : ℕ := ((key * 0x9E3779B97F4A7C15) >>> 32 &&& 511).toNat

/-- The `n`-th entry of a key's probe. -/
def probeAt (key : BitVec 64) (n : ℕ) : Fin okmContexts :=
  ⟨(startAt key + n) % okmContexts, Nat.mod_lt _ (by decide)⟩

/-- The entry of a context: what `__get_tp` answers, and the port's own thread record. -/
structure ContextSlot where
  key : BitVec 64 := 0
  tp : ℕ := 0
  self : ℕ := 0

/-- The key of an entry that is neither free nor retired. -/
def Live (key : BitVec 64) : Prop := key ≠ 0 ∧ key ≠ okmRetired

instance (key : BitVec 64) : Decidable (Live key) := inferInstanceAs (Decidable (_ ∧ _))

/-- Where a lookup is: at the load of the `n`-th key with the entry remembered, at the load of the
entry's key again, or at the compare-and-exchange. -/
inductive Find where
  | probe (n : ℕ) (free : Option (Fin okmContexts))
  | reload (slot : Fin okmContexts)
  | cas (slot : Fin okmContexts) (expected : BitVec 64)
  deriving DecidableEq

/-- What a step of a lookup leads to: another step, an answer, or an entry it has taken. -/
inductive FindStep where
  | more (f : Find)
  | done (slot : Option (Fin okmContexts))
  | take (slot : Fin okmContexts)
  deriving DecidableEq

/-- The next atomic step of `find`. -/
def Find.next (keys : Fin okmContexts → BitVec 64) (me : BitVec 64) (create : Bool) :
    Find → FindStep
  | .probe n free =>
    if n < okmContexts then
      let i := probeAt me n
      let k := keys i
      if k = me then .done (some i)
      -- nothing beyond a free entry can hold this key
      else if k = 0 then
        if create then .more (.reload (free.getD i)) else .done none
      else .more (.probe (n + 1) (if k = okmRetired ∧ free = none then some i else free))
    else if create then
      match free with
      | none => .done none
      | some i => .more (.reload i)
    else .done none
  | .reload i =>
    if keys i = me then .done (some i)
    else if Live (keys i) then .done none
    else .more (.cas i (keys i))
  | .cas i expected => if keys i = expected then .take i else .done none

inductive ContextOp where
  | setTp (value : ℕ)
  | setSelf (value : ℕ)
  | release
  deriving DecidableEq

/-- Whether the lookup of an operation creates. -/
def ContextOp.create : ContextOp → Bool
  | .setTp _ | .setSelf _ => true
  | .release => false

inductive ContextPc where
  | idle
  | finding (op : ContextOp) (f : Find)
  /-- The entry is found and not yet written. -/
  | found (op : ContextOp) (slot : Fin okmContexts)
  | aborted
  deriving DecidableEq

structure ContextTable (C : Type*) where
  slots : Fin okmContexts → ContextSlot
  recorded : Bool
  pc : C → ContextPc

inductive ContextLabel (C : Type*) where
  | begin (c : C) (op : ContextOp)
  | step (c : C)
  deriving DecidableEq

namespace ContextTable

section

variable {C : Type*}

def keys (s : ContextTable C) (i : Fin okmContexts) : BitVec 64 := (s.slots i).key

/-- Static storage. -/
def start : ContextTable C where
  slots := fun _ => {}
  recorded := false
  pc := fun _ => .idle

variable [DecidableEq C]

def goto (s : ContextTable C) (c : C) (pc : ContextPc) : ContextTable C :=
  { s with pc := Function.update s.pc c pc }

def setSlot (s : ContextTable C) (i : Fin okmContexts) (slot : ContextSlot) : ContextTable C :=
  { s with slots := Function.update s.slots i slot }

/-- Where an operation goes that finds no entry. -/
def absent : ContextOp → ContextPc
  | .setTp _ => .aborted
  | .setSelf _ | .release => .idle

/-- An operation writes the entry it has found. -/
def store (s : ContextTable C) (i : Fin okmContexts) : ContextOp → ContextTable C
  | .setTp value => { s.setSlot i { s.slots i with tp := value } with recorded := true }
  | .setSelf value => s.setSlot i { s.slots i with self := value }
  | .release => s.setSlot i { key := okmRetired }

variable (identity : C → BitVec 64)

/-- One step of one context. -/
def step (s : ContextTable C) : ContextLabel C → Option (ContextTable C)
  | .begin c op => if s.pc c = .idle then some (s.goto c (.finding op (.probe 0 none))) else none
  | .step c =>
    match s.pc c with
    | .finding op f =>
      match f.next s.keys (keyOf (identity c)) op.create with
      | .more f => some (s.goto c (.finding op f))
      | .done (some i) => some (s.goto c (.found op i))
      | .done none => some (s.goto c (absent op))
      | .take i =>
        some ((s.setSlot i { s.slots i with key := keyOf (identity c) }).goto c (.found op i))
    | .found op i => some ((s.store i op).goto c .idle)
    | .idle | .aborted => none

end

end ContextTable

/-! ## A lookup that has an entry left -/

namespace Find

variable {keys : Fin okmContexts → BitVec 64} {me : BitVec 64}

/-- The entry a creating lookup has remembered is free or retired, and one lies ahead where it has
remembered none. -/
def Good (keys : Fin okmContexts → BitVec 64) (me : BitVec 64) : Find → Prop
  | .probe n none => ∃ m < okmContexts, n ≤ m ∧ ¬ Live (keys (probeAt me m))
  | .probe n (some i) => n ≤ okmContexts ∧ ¬ Live (keys i)
  | .reload i => ¬ Live (keys i)
  | .cas i expected => keys i = expected ∧ ¬ Live expected

/-- A lookup that is left an entry when another context takes `j`. -/
def Spared (keys : Fin okmContexts → BitVec 64) (me : BitVec 64) (j : Fin okmContexts) :
    Find → Prop
  | .probe n none =>
    ∃ m < okmContexts, n ≤ m ∧ probeAt me m ≠ j ∧ ¬ Live (keys (probeAt me m))
  | .probe _ (some i) | .reload i | .cas i _ => i ≠ j

instance (keys : Fin okmContexts → BitVec 64) (me : BitVec 64) (j : Fin okmContexts) (f : Find) :
    Decidable (f.Spared keys me j) := by
  unfold Spared
  split <;> infer_instance

/-- The steps a lookup has left at most. -/
def left : Find → ℕ
  | .probe n _ => okmContexts + 3 - n
  | .reload _ => 2
  | .cas _ _ => 1

theorem left_le (f : Find) : f.left ≤ okmContexts + 3 := by
  cases f <;> simp [left]

theorem Good.left_pos {f : Find} (h : f.Good keys me) : 0 < f.left := by
  cases f with
  | probe n free =>
    have hn : n ≤ okmContexts := by
      cases free with
      | none =>
        obtain ⟨m, hm, hnm, -⟩ := h
        omega
      | some i => exact h.1
    simp only [left]
    omega
  | reload i => simp [left]
  | cas i expected => simp [left]

/-- A probe passes over every entry. -/
theorem exists_probeAt (me : BitVec 64) (i : Fin okmContexts) :
    ∃ m < okmContexts, probeAt me m = i := by
  have hi := i.isLt
  refine ⟨(i.val + okmContexts - startAt me % okmContexts) % okmContexts,
    Nat.mod_lt _ (by decide), ?_⟩
  apply Fin.ext
  simp only [probeAt]
  have hs : startAt me % okmContexts < okmContexts := Nat.mod_lt _ (by decide)
  unfold okmContexts at *
  omega

theorem good_probe_zero (me : BitVec 64) {i : Fin okmContexts} (h : ¬ Live (keys i)) :
    Good keys me (.probe 0 none) := by
  obtain ⟨m, hm, rfl⟩ := exists_probeAt me i
  exact ⟨m, hm, Nat.zero_le m, h⟩

/-- **One step of a creating lookup that has an entry left**: it goes on, nearer to its end and with
an entry left, or it has one. -/
theorem good_next {f : Find} (h : f.Good keys me) :
    (∃ f', f.next keys me true = .more f' ∧ f'.Good keys me ∧ f'.left < f.left) ∨
      (∃ i, f.next keys me true = .done (some i)) ∨ ∃ i, f.next keys me true = .take i := by
  cases f with
  | probe n free =>
    by_cases hn : n < okmContexts
    · simp only [next, hn, if_true]
      split_ifs with hme hzero hret
      · -- its own entry, taken before
        exact Or.inr (Or.inl ⟨_, rfl⟩)
      · -- a free entry ends the probe: the one remembered is reloaded, or this one
        refine Or.inl ⟨_, rfl, ?_, by simp only [left]; omega⟩
        cases free with
        | none => exact fun hl => hl.1 hzero
        | some i => exact h.2
      · -- the first retired entry is remembered
        refine Or.inl ⟨_, rfl, ⟨hn, fun hl => hl.2 hret.1⟩, by simp only [left]; omega⟩
      · -- a live entry is passed, so that the one ahead lies behind it
        refine Or.inl ⟨_, rfl, ?_, by simp only [left]; omega⟩
        cases free with
        | none =>
          obtain ⟨m, hm, hnm, hdead⟩ := h
          refine ⟨m, hm, Nat.lt_of_le_of_ne hnm ?_, hdead⟩
          rintro rfl
          exact hdead ⟨hzero, fun hr => hret ⟨hr, rfl⟩⟩
        | some i => exact ⟨hn, h.2⟩
    · cases free with
      | none =>
        -- the whole table was passed, and an entry was ahead: not without having remembered one
        obtain ⟨m, hm, hnm, -⟩ := h
        omega
      | some i =>
        refine Or.inl ⟨.reload i, by simp [next, hn], h.2, ?_⟩
        have hle := h.1
        simp only [left]
        omega
  | reload i =>
    simp only [next]
    split_ifs with hme hl
    · exact Or.inr (Or.inl ⟨_, rfl⟩)
    · -- taken meanwhile: the answer 0 that a spared lookup never gets
      exact absurd hl h
    · exact Or.inl ⟨_, rfl, ⟨rfl, h⟩, by simp [left]⟩
  | cas i expected =>
    refine Or.inr (Or.inr ⟨i, ?_⟩)
    simp [next, h.1]

/-- An entry that is taken is not the one a spared lookup has left. -/
theorem Good.take {f : Find} (h : f.Good keys me) {j : Fin okmContexts} (hs : f.Spared keys me j)
    (key : BitVec 64) : f.Good (Function.update keys j key) me := by
  cases f with
  | probe n free =>
    cases free with
    | none =>
      obtain ⟨m, hm, hnm, hne, hdead⟩ := hs
      exact ⟨m, hm, hnm, by rwa [Function.update_of_ne hne]⟩
    | some i => exact ⟨h.1, by rw [Function.update_of_ne hs]; exact h.2⟩
  | reload i =>
    have hdead : ¬ Live (Function.update keys j key i) := by
      rw [Function.update_of_ne hs]
      exact h
    exact hdead
  | cas i expected => exact ⟨by rw [Function.update_of_ne hs]; exact h.1, h.2⟩

/-- An entry that is retired was not free, and is no less to be had. -/
theorem Good.retire {f : Find} (h : f.Good keys me) {j : Fin okmContexts} (hj : keys j ≠ 0) :
    f.Good (Function.update keys j okmRetired) me := by
  have hdead : ∀ i, ¬ Live (keys i) → ¬ Live (Function.update keys j okmRetired i) := by
    intro i hi
    by_cases hij : i = j
    · subst hij
      rw [Function.update_self]
      exact fun hl => hl.2 rfl
    · rwa [Function.update_of_ne hij]
  cases f with
  | probe n free =>
    cases free with
    | none =>
      obtain ⟨m, hm, hnm, hd⟩ := h
      exact ⟨m, hm, hnm, hdead _ hd⟩
    | some i => exact ⟨h.1, hdead i h.2⟩
  | reload i => exact hdead i h
  | cas i expected =>
    refine ⟨?_, h.2⟩
    by_cases hij : i = j
    · subst hij
      rw [Function.update_self]
      -- what is expected is free or retired; an entry that was not free was retired already
      by_contra hne
      exact h.2 ⟨fun he => hj (h.1.trans he), fun he => hne he.symm⟩
    · rw [Function.update_of_ne hij]
      exact h.1

end Find

/-! ## Contexts that spare one another -/

namespace ContextTable

variable {C : Type*} (identity : C → BitVec 64)

/-- The entry that the next step of a context takes. -/
def takes (s : ContextTable C) (c : C) : Option (Fin okmContexts) :=
  match s.pc c with
  | .finding op f =>
    match f.next s.keys (keyOf (identity c)) op.create with
    | .take i => some i
    | _ => none
  | _ => none

/-- A context inside `__okm_set_tp` is left an entry when another takes `i`. -/
def Leaves (s : ContextTable C) (i : Fin okmContexts) (d : C) : Prop :=
  match s.pc d with
  | .finding (.setTp _) f => f.Spared s.keys (keyOf (identity d)) i
  | _ => True

instance (s : ContextTable C) (i : Fin okmContexts) (d : C) :
    Decidable (s.Leaves identity i d) := by
  unfold Leaves
  split <;> infer_instance

/-- A step spares the other contexts: `__okm_set_tp` begins where some entry is not live, and a
compare-and-exchange leaves the others inside it an entry. -/
def Spares (s : ContextTable C) : ContextLabel C → Prop
  | .begin _ (.setTp _) => ∃ i, ¬ Live (s.keys i)
  | .begin _ _ => True
  | .step c => ∀ i ∈ s.takes identity c, ∀ d, d ≠ c → s.Leaves identity i d

instance [Fintype C] [DecidableEq C] (s : ContextTable C) (l : ContextLabel C) :
    Decidable (s.Spares identity l) := by
  unfold Spares
  split <;> infer_instance

/-- Every context inside `__okm_set_tp` has an entry left, an entry that is about to be retired is
not free, and no context has aborted. -/
structure Inv (s : ContextTable C) : Prop where
  good : ∀ c v f, s.pc c = .finding (.setTp v) f → f.Good s.keys (keyOf (identity c))
  releasing : ∀ c i, s.pc c = .found .release i → s.keys i ≠ 0
  running : ∀ c, s.pc c ≠ .aborted

variable {identity}

theorem keyOf_ne_zero (k : BitVec 64) : keyOf k ≠ 0 := by
  unfold keyOf
  split_ifs with h
  · exact h
  · decide

theorem next_eq_done {keys : Fin okmContexts → BitVec 64} {me : BitVec 64} {create : Bool}
    {f : Find} {i : Fin okmContexts} (h : f.next keys me create = .done (some i)) :
    keys i = me := by
  cases f with
  | probe n free =>
    simp only [Find.next] at h
    split_ifs at h with hn hme
    · obtain rfl : probeAt me n = i := by simpa using h
      exact hme
    · simp at h
    · cases free <;> simp at h
    · simp at h
  | reload j =>
    simp only [Find.next] at h
    split_ifs at h with hme
    · obtain rfl : j = i := by simpa using h
      exact hme
    · simp at h
  | cas j expected =>
    simp only [Find.next] at h
    split_ifs at h
    simp at h

theorem keys_setSlot (s : ContextTable C) (i : Fin okmContexts) (slot : ContextSlot) :
    (s.setSlot i slot).keys = Function.update s.keys i slot.key := by
  funext j
  by_cases hj : j = i
  · subst hj
    simp [keys, setSlot]
  · simp [keys, setSlot, hj]

/-- Only a release changes a key when an entry is written. -/
theorem keys_store (s : ContextTable C) (i : Fin okmContexts) (op : ContextOp) :
    (s.store i op).keys =
      if op = .release then Function.update s.keys i okmRetired else s.keys := by
  cases op with
  | setTp v => exact (keys_setSlot s i _).trans (Function.update_eq_self i s.keys)
  | setSelf v => exact (keys_setSlot s i _).trans (Function.update_eq_self i s.keys)
  | release => exact keys_setSlot s i _

section Step

variable [DecidableEq C]

@[simp] theorem keys_goto (s : ContextTable C) (c : C) (pc : ContextPc) :
    (s.goto c pc).keys = s.keys := rfl

/-- What has to be shown of the context that moves and of what it writes. -/
theorem Inv.move {s t : ContextTable C} {c : C} {pc : ContextPc} (h : s.Inv identity)
    (hpc : t.pc = Function.update s.pc c pc)
    (hgood : ∀ v f, pc = .finding (.setTp v) f → f.Good t.keys (keyOf (identity c)))
    (hothers : ∀ d v f, d ≠ c → s.pc d = .finding (.setTp v) f →
      f.Good t.keys (keyOf (identity d)))
    (hrelease : ∀ i, pc = .found .release i → t.keys i ≠ 0)
    (hzero : ∀ i, s.keys i ≠ 0 → t.keys i ≠ 0) (hrun : pc ≠ .aborted) : t.Inv identity where
  good := by
    intro d v f hd
    by_cases hdc : d = c
    · subst hdc
      rw [hpc, Function.update_self] at hd
      exact hgood v f hd
    · rw [hpc, Function.update_of_ne hdc] at hd
      exact hothers d v f hdc hd
  releasing := by
    intro d i hd
    by_cases hdc : d = c
    · subst hdc
      rw [hpc, Function.update_self] at hd
      exact hrelease i hd
    · rw [hpc, Function.update_of_ne hdc] at hd
      exact hzero i (h.releasing d i hd)
  running := by
    intro d
    by_cases hdc : d = c
    · subst hdc
      rwa [hpc, Function.update_self]
    · rw [hpc, Function.update_of_ne hdc]
      exact h.running d

/-- A context that moves and writes no key. -/
theorem Inv.goto {s : ContextTable C} {c : C} {pc : ContextPc} (h : s.Inv identity)
    (hgood : ∀ v f, pc = .finding (.setTp v) f → f.Good s.keys (keyOf (identity c)))
    (hrelease : ∀ i, pc = .found .release i → s.keys i ≠ 0) (hrun : pc ≠ .aborted) :
    (s.goto c pc).Inv identity :=
  h.move rfl hgood (fun d v f _ hd => h.good d v f hd) hrelease (fun _ => id) hrun

theorem Inv.begin {s : ContextTable C} {c : C} {op : ContextOp} (h : s.Inv identity)
    (hg : s.Spares identity (.begin c op)) :
    (s.goto c (.finding op (.probe 0 none))).Inv identity := by
  refine h.goto (fun v f hf => ?_) nofun nofun
  obtain ⟨rfl, rfl⟩ : op = .setTp v ∧ Find.probe 0 none = f := by simpa using hf
  obtain ⟨i, hi⟩ := hg
  exact Find.good_probe_zero _ hi

/-- An entry that is taken is left to no other. -/
theorem Inv.take {s : ContextTable C} {c : C} {op : ContextOp} {f : Find} {i : Fin okmContexts}
    (h : s.Inv identity) (hc : s.pc c = .finding op f)
    (hf : f.next s.keys (keyOf (identity c)) op.create = .take i)
    (hg : s.Spares identity (.step c)) :
    ((s.setSlot i { s.slots i with key := keyOf (identity c) }).goto c (.found op i)).Inv
      identity := by
  have htakes : s.takes identity c = some i := by
    unfold takes
    rw [hc]
    simp only [hf]
  refine h.move rfl nofun ?_ ?_ ?_ nofun
  · -- the others inside have an entry left, since this one was not their last
    intro d v g hd hfind
    rw [keys_goto, keys_setSlot]
    have hleaves : s.Leaves identity i d := hg i htakes d hd
    unfold Leaves at hleaves
    rw [hfind] at hleaves
    exact (h.good d v g hfind).take hleaves _
  · intro j hj
    obtain ⟨-, rfl⟩ : op = .release ∧ i = j := by simpa using hj
    rw [keys_goto, keys_setSlot, Function.update_self]
    exact keyOf_ne_zero _
  · intro j hj
    rw [keys_goto, keys_setSlot]
    by_cases hji : j = i
    · subst hji
      rw [Function.update_self]
      exact keyOf_ne_zero _
    · rwa [Function.update_of_ne hji]

theorem Inv.store {s : ContextTable C} {c : C} {op : ContextOp} {i : Fin okmContexts}
    (h : s.Inv identity) (hc : s.pc c = .found op i) :
    ((s.store i op).goto c .idle).Inv identity := by
  have hkeys := keys_store s i op
  have hpc : ((s.store i op).goto c .idle).pc = Function.update s.pc c .idle := by
    cases op <;> rfl
  by_cases hop : op = .release
  · -- a release retires its entry, which was a live one
    subst hop
    have hi := h.releasing c i hc
    rw [if_pos rfl] at hkeys
    refine h.move hpc nofun ?_ nofun ?_ nofun
    · intro d v f _ hfind
      rw [keys_goto, hkeys]
      exact (h.good d v f hfind).retire hi
    · intro j hj
      rw [keys_goto, hkeys]
      by_cases hji : j = i
      · subst hji
        rw [Function.update_self]
        decide
      · rwa [Function.update_of_ne hji]
  · rw [if_neg hop] at hkeys
    refine h.move hpc nofun ?_ nofun ?_ nofun
    · intro d v f _ hfind
      rw [keys_goto, hkeys]
      exact h.good d v f hfind
    · intro j hj
      rwa [keys_goto, hkeys]

/-- **What a step that spares the others keeps.** -/
theorem Inv.step {s t : ContextTable C} {l : ContextLabel C} (h : s.Inv identity)
    (hg : s.Spares identity l) (hs : s.step identity l = some t) : t.Inv identity := by
  cases l with
  | begin c op =>
    simp only [ContextTable.step] at hs
    split_ifs at hs
    rw [← Option.some.inj hs]
    exact h.begin hg
  | step c =>
    simp only [ContextTable.step] at hs
    cases hpc : s.pc c with
    | idle => simp [hpc] at hs
    | aborted => simp [hpc] at hs
    | found op i =>
      simp only [hpc, Option.some.injEq] at hs
      rw [← hs]
      exact h.store hpc
    | finding op f =>
      simp only [hpc] at hs
      cases hnext : f.next s.keys (keyOf (identity c)) op.create with
      | more f' =>
        simp only [hnext, Option.some.injEq] at hs
        rw [← hs]
        refine h.goto (fun v g hf => ?_) nofun nofun
        obtain ⟨rfl, rfl⟩ : op = .setTp v ∧ f' = g := by simpa using hf
        -- the lookup of the one that moves
        rcases Find.good_next (h.good c v f hpc) with ⟨f₁, hf₁, hgood, -⟩ | ⟨i, hi⟩ | ⟨i, hi⟩
        · obtain rfl : f' = f₁ := by simpa [ContextOp.create, hf₁] using hnext.symm
          exact hgood
        · simp [ContextOp.create, hi] at hnext
        · simp [ContextOp.create, hi] at hnext
      | done slot =>
        cases slot with
        | some i =>
          simp only [hnext, Option.some.injEq] at hs
          rw [← hs]
          refine h.goto nofun (fun j hj => ?_) nofun
          obtain ⟨-, rfl⟩ : op = .release ∧ i = j := by simpa using hj
          rw [next_eq_done hnext]
          exact keyOf_ne_zero _
        | none =>
          simp only [hnext, Option.some.injEq] at hs
          rw [← hs]
          -- a lookup of `__okm_set_tp` has an entry left
          cases op with
          | setTp v =>
            exfalso
            rcases Find.good_next (h.good c v f hpc) with ⟨f₁, hf₁, -⟩ | ⟨i, hi⟩ | ⟨i, hi⟩
            · simp [ContextOp.create, hf₁] at hnext
            · simp [ContextOp.create, hi] at hnext
            · simp [ContextOp.create, hi] at hnext
          | setSelf v => exact h.goto nofun nofun nofun
          | release => exact h.goto nofun nofun nofun
      | take i =>
        simp only [hnext, Option.some.injEq] at hs
        rw [← hs]
        exact h.take hpc hnext hg

omit [DecidableEq C] in
theorem inv_start : (start : ContextTable C).Inv identity :=
  ⟨nofun, nofun, nofun⟩

/-- A step of a context moves no other. -/
theorem exists_pc_step {s t : ContextTable C} {c : C} (hs : s.step identity (.step c) = some t) :
    ∃ pc, t.pc = Function.update s.pc c pc := by
  simp only [ContextTable.step] at hs
  cases hpc : s.pc c with
  | idle => simp [hpc] at hs
  | aborted => simp [hpc] at hs
  | found op i =>
    simp only [hpc, Option.some.injEq] at hs
    rw [← hs]
    exact ⟨.idle, by cases op <;> rfl⟩
  | finding op f =>
    simp only [hpc] at hs
    split at hs <;> exact ⟨_, by rw [← Option.some.inj hs]; rfl⟩

/-- Only a context's own steps move it once it is inside an operation. -/
theorem pc_step_of_ne {s t : ContextTable C} {l : ContextLabel C} {c : C}
    (hs : s.step identity l = some t) (hl : l ≠ .step c) (hc : s.pc c ≠ .idle) :
    t.pc c = s.pc c := by
  cases l with
  | begin d op =>
    simp only [ContextTable.step] at hs
    split_ifs at hs with hd
    rw [← Option.some.inj hs, ContextTable.goto]
    refine Function.update_of_ne ?_ ..
    rintro rfl
    exact hc hd
  | step d =>
    obtain ⟨pc, hpc⟩ := exists_pc_step hs
    rw [hpc]
    exact Function.update_of_ne (fun h => hl (by rw [h])) ..

/-- A step of a context inside `__okm_set_tp` finds an entry, or comes nearer to one. -/
theorem finding_step {s t : ContextTable C} (h : s.Inv identity) {c : C} {v : ℕ} {f : Find}
    (hc : s.pc c = .finding (.setTp v) f) (hs : s.step identity (.step c) = some t) :
    (∃ i, t.pc c = .found (.setTp v) i) ∨
      ∃ f', t.pc c = .finding (.setTp v) f' ∧ f'.left < f.left := by
  simp only [ContextTable.step, hc, ContextOp.create] at hs
  rcases Find.good_next (h.good c v f hc) with ⟨f', hf, -, hleft⟩ | ⟨i, hi⟩ | ⟨i, hi⟩
  · simp only [hf, Option.some.injEq] at hs
    rw [← hs]
    exact Or.inr ⟨f', Function.update_self .., hleft⟩
  · simp only [hi, Option.some.injEq] at hs
    rw [← hs]
    exact Or.inl ⟨i, Function.update_self ..⟩
  · simp only [hi, Option.some.injEq] at hs
    rw [← hs]
    exact Or.inl ⟨i, Function.update_self ..⟩

end Step

section Runs

variable [Fintype C] [DecidableEq C]

theorem inv_of_reachable {s : ContextTable C}
    (h : Reachable (restrict (step identity) (Spares identity)) start s) : s.Inv identity :=
  h.invariant inv_start fun _ _ _ hu hv =>
    hu.step (restrict_eq_some.mp hv).1 (restrict_eq_some.mp hv).2

/-- A context inside `__okm_set_tp` that takes as many steps as its lookup has left finds an
entry. -/
theorem exists_found {s t : ContextTable C} (h : s.Inv identity) {c : C} {v : ℕ} {f : Find}
    (hc : s.pc c = .finding (.setTp v) f) {ls : List (ContextLabel C)}
    (hrun : run (restrict (step identity) (Spares identity)) s ls = some t)
    (hcount : f.left ≤ ls.count (.step c)) :
    ∃ us vs u i, ls = us ++ vs ∧
      run (restrict (step identity) (Spares identity)) s us = some u ∧
      u.pc c = .found (.setTp v) i := by
  -- Induction on the run; what is left of the lookup shrinks with the steps of `c`.
  induction ls generalizing s f with
  | nil =>
    have := (h.good c v f hc).left_pos
    simp only [List.count_nil] at hcount
    omega
  | cons l ls ih =>
    obtain ⟨u, hu, hrest⟩ := run_cons.mp hrun
    obtain ⟨hg, hstep⟩ := restrict_eq_some.mp hu
    have hinv := h.step hg hstep
    -- what the rest of the run reaches, the run reaches after `l`
    have hcons : ∀ f', u.pc c = .finding (.setTp v) f' → f'.left ≤ ls.count (.step c) →
        ∃ us vs w i, l :: ls = us ++ vs ∧
          run (restrict (step identity) (Spares identity)) s us = some w ∧
          w.pc c = .found (.setTp v) i := by
      intro f' hf' hleft
      obtain ⟨us, vs, w, i, rfl, hw, hi⟩ := ih hinv hf' hrest hleft
      exact ⟨l :: us, vs, w, i, rfl, run_cons.mpr ⟨u, hu, hw⟩, hi⟩
    by_cases hl : l = .step c
    · subst hl
      rw [List.count_cons_self] at hcount
      rcases finding_step h hc hstep with ⟨i, hi⟩ | ⟨f', hf', hleft⟩
      · exact ⟨[.step c], ls, u, i, rfl, run_cons.mpr ⟨u, hu, rfl⟩, hi⟩
      · exact hcons f' hf' (by omega)
    · -- another context's step leaves the lookup of `c` where it is
      rw [List.count_cons_of_ne hl] at hcount
      refine hcons f ?_ hcount
      rw [pc_step_of_ne hstep hl (by rw [hc]; nofun), hc]

/-- **No context aborts below the bound**, in a run in which `__okm_set_tp` begins where some entry
is not live and no compare-and-exchange takes from another context inside it the entry that one has
remembered or the last ahead of its probe; and each obtains an entry, after as many steps of its own
as its lookup has left. -/
theorem never_aborts {s : ContextTable C}
    (h : Reachable (restrict (step identity) (Spares identity)) start s) :
    (∀ c, s.pc c ≠ .aborted) ∧
      ∀ c v f, s.pc c = .finding (.setTp v) f → f.left ≤ okmContexts + 3 ∧
        ∀ ls t, run (restrict (step identity) (Spares identity)) s ls = some t →
          f.left ≤ ls.count (.step c) →
          ∃ us vs u i, ls = us ++ vs ∧
            run (restrict (step identity) (Spares identity)) s us = some u ∧
            u.pc c = .found (.setTp v) i := by
  have hinv := inv_of_reachable h
  refine ⟨hinv.running, fun c v f hc => ⟨f.left_le, fun ls t hrun hcount => ?_⟩⟩
  exact exists_found hinv hc hrun hcount

end Runs

/-- Two identities whose probes begin at one entry. -/
def twoIdentities : Bool → BitVec 64 := fun c => if c then 749 else 1

theorem never_aborts_two :
    ∃ s : ContextTable Bool, Reachable (restrict (step twoIdentities) (Spares twoIdentities))
        start s ∧ s.pc false = .finding (.setTp 7) (.cas (probeAt 1 0) 0) ∧
      (∀ c, s.pc c ≠ .aborted) ∧
      ∃ us vs u i, [.step false] = us ++ vs ∧
        run (restrict (step twoIdentities) (Spares twoIdentities)) s us = some u ∧
        u.pc false = .found (.setTp 7) i := by
  have hs : (run (restrict (step twoIdentities) (Spares twoIdentities)) start
      [.begin false (.setTp 7), .step false, .step false]).map (fun s => s.pc false) =
        some (.finding (.setTp 7) (.cas (probeAt 1 0) 0)) := by decide +kernel
  have ht : (run (restrict (step twoIdentities) (Spares twoIdentities)) start
      ([.begin false (.setTp 7), .step false, .step false] ++ [.step false])).isSome = true := by
    decide +kernel
  obtain ⟨t, ht⟩ := Option.isSome_iff_exists.mp ht
  obtain ⟨s, hrun, hlast⟩ := run_append.mp ht
  rw [hrun] at hs
  have hpc : s.pc false = .finding (.setTp 7) (.cas (probeAt 1 0) 0) := Option.some.inj hs
  have hreach : Reachable (restrict (step twoIdentities) (Spares twoIdentities)) start s :=
    ⟨_, hrun⟩
  exact ⟨s, hreach, hpc, (never_aborts hreach).1,
    ((never_aborts hreach).2 false 7 _ hpc).2 [.step false] t hlast (by decide)⟩

/-- Both contexts look up before either takes the entry. -/
def lostRace : List (ContextLabel Bool) :=
  [.begin false (.setTp 7), .begin true (.setTp 8), .step false, .step true, .step false,
    .step true, .step false, .step true]

/-- **A context that aborts with one entry live**: it lost the compare-and-exchange. -/
theorem aborts_below_bound :
    Function.Injective twoIdentities ∧
      ∃ s : ContextTable Bool, Reachable (step twoIdentities) start s ∧ s.pc true = .aborted ∧
        (Finset.univ.filter fun i => Live (s.keys i)).card = 1 := by
  refine ⟨by decide, ?_⟩
  have hrun : (run (step twoIdentities) start lostRace).map (fun s =>
      (s.pc true, (Finset.univ.filter fun i => Live (s.keys i)).card)) = some (.aborted, 1) := by
    decide +kernel
  obtain ⟨s, hs, hpc⟩ := Option.map_eq_some_iff.mp hrun
  rw [Prod.mk.injEq] at hpc
  exact ⟨s, ⟨lostRace, hs⟩, hpc.1, hpc.2⟩

end ContextTable

end OpenkalMusl
