import OpenkalMusl.Threads.Records

/-!
# The numbers of contexts

musl's record of a context holds a number, which is the owner's word of a recursive or
error-checking mutex. The first context's is its identity in the environment, cut to an `int`, and
those of the threads come from a counter of the library's own that starts beside one. The two meet
where the counter reaches the first context's number.

An owner's word leaves thirty bits for the number, and one value of these means that the mutex is
not recoverable, so a number is usable below that value.

## Main definitions

* `OwnerMutex.trylockOwner`, `OwnerMutex.unlockOwner`: the calls that compare a number with the word
* `Threads.Apart`: contexts that live have numbers that are positive and distinct, and a mutex that
  one owns is busy to the others
* `Threads.Numbers`: the counter does not reach the first context's number or the bound

## Main results

* `apart_while_numbered`: the numbers are apart in every run that keeps the counter off
* `tids_collide`: a thread that has the first context's number, and takes its mutex
-/

namespace OpenkalMusl

open Transition

/-! ## A mutex with an owner -/

/-- The bits of an owner's word that name the owner. -/
def ownerMask : BitVec 32 := 0x3fffffff

/-- A mutex of another type than `PTHREAD_MUTEX_NORMAL`: `_m_type`, `_m_lock`, `_m_count` and
`_m_waiters`. -/
structure OwnerMutex where
  type : BitVec 32
  lock : BitVec 32
  count : ℤ
  waiters : ℤ
  deriving DecidableEq

/-- What the calls return. -/
inductive OwnerAnswer where
  | ok | eagain | ebusy | enotrecoverable | eownerdead | eperm
  deriving DecidableEq

namespace OwnerMutex

/-- The owner's bits of the word. -/
def own (m : OwnerMutex) : BitVec 32 := m.lock &&& ownerMask

def recursive (m : OwnerMutex) : Bool := m.type &&& 3 = 1

def robust (m : OwnerMutex) : Bool := m.type &&& 4 ≠ 0

def inherits (m : OwnerMutex) : Bool := m.type &&& 8 ≠ 0

/-- A mutex that was taken, where `old` was its word. -/
def taken (m : OwnerMutex) (old : BitVec 32) : OwnerMutex × OwnerAnswer :=
  if m.inherits = true ∧ m.waiters ≠ 0 then
    -- `FUTEX_UNLOCK_PI` is refused by this library, and the answer not read
    (m, if m.robust then .enotrecoverable else .ebusy)
  else if old ≠ 0 then ({ m with count := 0 }, .eownerdead)
  else (m, .ok)

/-- `__pthread_mutex_trylock_owner` by the context with the number `tid`, with nothing
in between. -/
def trylockOwner (m : OwnerMutex) (tid : BitVec 32) : OwnerMutex × OwnerAnswer :=
  if m.own = tid ∧ m.inherits = true ∧ m.count < 0 then
    { m with count := 0 }.taken (m.lock &&& 0x40000000)
  else if m.own = tid ∧ m.recursive = true then
    if 2 ^ 31 - 1 ≤ m.count then (m, .eagain) else ({ m with count := m.count + 1 }, .ok)
  else if m.own = ownerMask then (m, .enotrecoverable)
  else if m.own ≠ 0 ∨ m.lock ≠ 0 ∧ m.robust = false then (m, .ebusy)
  else
    -- a mutex that several programs share is marked where somebody waits
    let mark : BitVec 32 := if m.type &&& 128 ≠ 0 ∧ m.waiters ≠ 0 then 0x80000000 else 0
    { m with lock := tid ||| mark ||| (m.lock &&& 0x40000000) }.taken m.lock

/-- `__pthread_mutex_unlock` of a mutex with an owner. -/
def unlockOwner (m : OwnerMutex) (tid : BitVec 32) : OwnerMutex × OwnerAnswer :=
  if m.own ≠ tid then (m, .eperm)
  else if m.recursive = true ∧ m.count ≠ 0 then ({ m with count := m.count - 1 }, .ok)
  else
    let new : BitVec 32 := if m.robust = true ∧ m.lock &&& 0x40000000 ≠ 0 then 0x7fffffff else 0
    -- as it is here, for a word that says that somebody waits
    if m.inherits = true ∧ m.lock.msb = true then
      ({ m with waiters := if new ≠ 0 then -1 else m.waiters }, .ok)
    else ({ m with lock := new }, .ok)

/-- A mutex of one context is busy to another, and not another's to give back. -/
theorem busy_of_other {m : OwnerMutex} {tid : BitVec 32} (hne : m.own ≠ tid) (hzero : m.own ≠ 0)
    (hmask : m.own ≠ ownerMask) :
    m.trylockOwner tid = (m, .ebusy) ∧ m.unlockOwner tid = (m, .eperm) := by
  constructor
  · unfold trylockOwner
    rw [if_neg fun h => hne h.1, if_neg fun h => hne h.1, if_neg hmask, if_pos (Or.inl hzero)]
  · unfold unlockOwner
    rw [if_pos hne]

end OwnerMutex

/-! ## The numbers -/

/-- In `__clone`, where a context counts upon the number of its record. -/
def ClonePc.counts : ClonePc → Bool
  | .ptid _ | .start _ => true
  | _ => false

namespace Threads

/-- The context lives: the first, or one between its start and its end. -/
def Live (s : Threads) : Runner → Prop
  | none => True
  | some t => s.entry t ≠ .absent ∧ s.entry t ≠ .ended

/-- **Contexts that live are told apart by their numbers.** -/
structure Apart (s : Threads) : Prop where
  positive : ∀ c, s.Live c → 0 < (s.tid c).toInt
  distinct : ∀ c d, s.Live c → s.Live d → c ≠ d → s.tid c ≠ s.tid d
  /-- A mutex that one owns is busy to another, which cannot give it back. -/
  owners : ∀ c d, s.Live c → s.Live d → c ≠ d → ∀ m : OwnerMutex, m.own = s.tid c →
    m.trylockOwner (s.tid d) = (m, .ebusy) ∧ m.unlockOwner (s.tid d) = (m, .eperm)

/-- A number an owner's word can carry. -/
def Usable (tid : BitVec 32) : Prop := 0 < tid.toNat ∧ tid.toNat < 0x3fffffff

instance (tid : BitVec 32) : Decidable (Usable tid) := inferInstanceAs (Decidable (_ ∧ _))

/-- The counter is not about to reach the first context's number, or the bound of an owner's word;
and the identity of a start from a snapshot gives a number that can be used. -/
def Numbers (s : Threads) : ThreadLabel → Prop
  | .step c => ∀ t, s.call c = .tidTake t →
      s.gTid.toNat + 1 < 0x3fffffff ∧ s.gTid.toNat + 1 ≠ (s.tid none).toNat
  | .snapshotStart id => Usable (firstTid id)
  | _ => True

instance (s : Threads) : (l : ThreadLabel) → Decidable (s.Numbers l)
  | .step c =>
    match hc : s.call c with
    | .tidTake t => decidable_of_iff
        (s.gTid.toNat + 1 < 0x3fffffff ∧ s.gTid.toNat + 1 ≠ (s.tid none).toNat)
        (by simp [Numbers, hc])
    | .idle | .reapLock | .reapWalk _ | .reapJoin _ | .reapFree _ | .alloc | .fill _ | .tidLock _
    | .ptid _ | .start _ | .refused _ | .noteTask _ | .linkLock _ | .link _ | .ret _ =>
      isTrue (by simp [Numbers, hc])
  | .snapshotStart id => inferInstanceAs (Decidable (Usable (firstTid id)))
  | .clone _ | .allocFails _ | .startFails _ | .entry _ => isTrue trivial

/-- The numbers given so far: none twice, all below the counter and none the first context's; a
record that is past its numbering has one, and musl's record of a thread holds it. -/
structure Numbered (s : Threads) : Prop where
  first : Usable (s.tid none)
  counter : 1 ≤ s.gTid.toNat ∧ s.gTid.toNat < 0x3fffffff
  given : ∀ t, s.recTid t ≠ 0 → 2 ≤ (s.recTid t).toNat ∧ (s.recTid t).toNat ≤ s.gTid.toNat ∧
    s.recTid t ≠ s.tid none
  inj : ∀ t x, s.recTid t ≠ 0 → s.recTid t = s.recTid x → t = x
  taken : ∀ c t, s.call c = .ptid t → s.recTid t ≠ 0
  told : ∀ c t, s.call c = .start t → s.recTid t ≠ 0 ∧ s.tid (some t) = s.recTid t
  held : ∀ t, s.entry t ≠ .absent → s.recTid t ≠ 0 ∧ s.tid (some t) = s.recTid t
  unborn : ∀ t, s.count ≤ t → s.recTid t = 0

theorem numbered_start {id : BitVec 64} (h : Usable (firstTid id)) : (start id).Numbered where
  first := h
  counter := by
    show 1 ≤ (1 : BitVec 32).toNat ∧ (1 : BitVec 32).toNat < 0x3fffffff
    decide
  given := fun _ hr => absurd rfl hr
  inj := fun _ _ hr => absurd rfl hr
  taken := nofun
  told := nofun
  held := fun _ he => absurd rfl he
  unborn := fun _ _ => rfl

/-- **Numbers that are given so are apart.** -/
theorem Numbered.apart {s : Threads} (h : s.Numbered) : s.Apart := by
  have hpresent : ∀ {t}, s.Live (some t) → s.entry t ≠ .absent := fun ht => ht.1
  have husable : ∀ c, s.Live c → Usable (s.tid c) := by
    intro c hc
    cases c with
    | none => exact h.first
    | some t =>
      obtain ⟨hr, ht⟩ := h.held t (hpresent hc)
      obtain ⟨hlow, hhigh, -⟩ := h.given t hr
      have hcounter := h.counter.2
      rw [ht]
      exact ⟨by omega, by omega⟩
  have hdistinct : ∀ c d, s.Live c → s.Live d → c ≠ d → s.tid c ≠ s.tid d := by
    -- a thread's number is not the first context's
    have hfirst : ∀ t, s.Live (some t) → s.tid (some t) ≠ s.tid none := by
      intro t ht
      obtain ⟨hr, hsame⟩ := h.held t (hpresent ht)
      rw [hsame]
      exact (h.given t hr).2.2
    intro c d hc hd hne
    cases c with
    | none =>
      cases d with
      | none => exact absurd rfl hne
      | some x => exact (hfirst x hd).symm
    | some t =>
      cases d with
      | none => exact hfirst t hc
      | some x =>
        obtain ⟨hr, ht⟩ := h.held t (hpresent hc)
        obtain ⟨-, hx⟩ := h.held x (hpresent hd)
        rw [ht, hx]
        exact fun heq => hne (congrArg some (h.inj t x hr heq))
  refine ⟨fun c hc => ?_, hdistinct, fun c d hc hd hne m hm => ?_⟩
  · obtain ⟨hlow, hhigh⟩ := husable c hc
    rw [BitVec.toInt_eq_toNat_of_lt (by omega)]
    exact_mod_cast hlow
  · obtain ⟨hlow, hhigh⟩ := husable c hc
    refine OwnerMutex.busy_of_other ?_ ?_ ?_
    · rw [hm]
      exact hdistinct c d hc hd hne
    · rw [hm]
      intro hzero
      rw [hzero] at hlow
      exact absurd hlow (by decide)
    · rw [hm]
      intro hmask
      rw [hmask] at hhigh
      exact absurd hhigh (by decide)

/-! ## One step -/

section Steps

variable {s u : Threads} {c : Runner}

theorem Numbered.frame (h : s.Numbered) (hcount : s.count ≤ u.count) (hgTid : u.gTid = s.gTid)
    (hrec : u.recTid = s.recTid) (htid : u.tid = s.tid) (hcall : u.call = s.call)
    (hentry : u.entry = s.entry) : u.Numbered := by
  obtain ⟨first, counter, given, inj, taken, told, held, unborn⟩ := h
  constructor
  · rwa [htid]
  · rwa [hgTid]
  · rwa [hrec, hgTid, htid]
  · rwa [hrec]
  · rwa [hcall, hrec]
  · rwa [hcall, hrec, htid]
  · rwa [hentry, hrec, htid]
  · rw [hrec]
    exact fun t ht => unborn t (hcount.trans ht)

/-- A context moves to where it does not count upon a number. -/
theorem Numbered.goto (h : s.Numbered) (c : Runner) (pc : ClonePc) (hpc : pc.counts = false) :
    (s.goto c pc).Numbered where
  first := h.first
  counter := h.counter
  given := h.given
  inj := h.inj
  taken := by
    refine calls_goto (P := fun _ p => ∀ t, p = .ptid t → s.recTid t ≠ 0) h.taken ?_
    rintro t rfl
    cases hpc
  told := by
    refine calls_goto
      (P := fun _ p => ∀ t, p = .start t → s.recTid t ≠ 0 ∧ s.tid (some t) = s.recTid t) h.told ?_
    rintro t rfl
    cases hpc
  held := h.held
  unborn := h.unborn

/-- A context that was started goes on. -/
theorem Numbered.enter (h : s.Numbered) {t : ℕ} (hpresent : s.entry t ≠ .absent) (e : EntryPc) :
    { s with entry := Function.update s.entry t e }.Numbered := by
  refine ⟨h.first, h.counter, h.given, h.inj, h.taken, h.told, fun x hx => ?_, h.unborn⟩
  by_cases hxt : x = t
  · subst hxt
    exact h.held x hpresent
  · exact h.held x (by rwa [← Function.update_of_ne hxt e s.entry])

/-- A record that a context is creating is no other's, and nothing was started upon it. -/
theorem Inv.creating (h : s.Inv) {t : ℕ} (hc : (s.call c).holding = some (t, .created)) :
    s.entry t = .absent ∧ ∀ d x, d ≠ c → (s.call d = .ptid x ∨ s.call d = .start x) → x ≠ t := by
  refine ⟨(h.calls c t .created hc).1, ?_⟩
  rintro d x hd hx rfl
  have howns : s.Owns (some d) x := by
    refine ⟨.created, ?_⟩
    rcases hx with hx | hx <;> rw [hx] <;> rfl
  exact hd (Option.some.inj (h.owned.unique howns (owns_of_holding hc)))

/-- **A record gets a number** that is none of the others', or its number is cleared. -/
theorem Numbered.number (h : s.Numbered) (hi : s.Inv) {t : ℕ} {n g : BitVec 32} (pc : ClonePc)
    (hc : (s.call c).holding = some (t, .created)) (hg : s.gTid.toNat ≤ g.toNat)
    (hbound : g.toNat < 0x3fffffff)
    (hn : n ≠ 0 → s.gTid.toNat < n.toNat ∧ n.toNat ≤ g.toNat ∧ n ≠ s.tid none)
    (hpc : pc = .tidLock t ∨ pc = .ptid t ∧ n ≠ 0) :
    ({ s with gTid := g, recTid := Function.update s.recTid t n }.goto c pc).Numbered := by
  obtain ⟨habsent, hother⟩ := hi.creating hc
  have hcounter := h.counter.1
  have hself : Function.update s.recTid t n t = n := Function.update_self ..
  have hkeep : ∀ {x}, x ≠ t → Function.update s.recTid t n x = s.recTid x :=
    fun hx => Function.update_of_ne hx ..
  refine ⟨h.first, ⟨hcounter.trans hg, hbound⟩, fun x hx => ?_, fun x y hx hxy => ?_,
    fun d x hd => ?_, fun d x hd => ?_, fun x hx => ?_, fun x hx => ?_⟩
  · change Function.update s.recTid t n x ≠ 0 at hx
    show 2 ≤ (Function.update s.recTid t n x).toNat ∧
      (Function.update s.recTid t n x).toNat ≤ g.toNat ∧ Function.update s.recTid t n x ≠ s.tid none
    by_cases hxt : x = t
    · subst hxt
      rw [hself] at hx ⊢
      obtain ⟨hlow, hhigh, hfirst⟩ := hn hx
      exact ⟨by omega, hhigh, hfirst⟩
    · rw [hkeep hxt] at hx ⊢
      obtain ⟨hlow, hhigh, hfirst⟩ := h.given x hx
      exact ⟨hlow, hhigh.trans hg, hfirst⟩
  · change Function.update s.recTid t n x ≠ 0 at hx
    change Function.update s.recTid t n x = Function.update s.recTid t n y at hxy
    -- the number is above all that were given
    have habove : ∀ z, n ≠ 0 → n = s.recTid z → False := by
      intro z hz hzn
      obtain ⟨hlow, -, -⟩ := hn hz
      obtain ⟨-, hhigh, -⟩ := h.given z (hzn ▸ hz)
      rw [← hzn] at hhigh
      omega
    by_cases hxt : x = t
    · by_cases hyt : y = t
      · rw [hxt, hyt]
      · rw [hxt, hself] at hx
        rw [hxt, hself, hkeep hyt] at hxy
        exact (habove y hx hxy).elim
    · by_cases hyt : y = t
      · rw [hkeep hxt] at hx
        rw [hyt, hself, hkeep hxt] at hxy
        exact (habove x (hxy ▸ hx) hxy.symm).elim
      · rw [hkeep hxt] at hx
        rw [hkeep hxt, hkeep hyt] at hxy
        exact h.inj x y hx hxy
  · show Function.update s.recTid t n x ≠ 0
    by_cases hdc : d = c
    · subst hdc
      rw [goto_call_self] at hd
      rcases hpc with rfl | ⟨rfl, hne⟩
      · cases hd
      · cases hd
        rwa [hself]
    · rw [goto_call_of_ne hdc] at hd
      rw [hkeep (hother d x hdc (Or.inl hd))]
      exact h.taken d x hd
  · show Function.update s.recTid t n x ≠ 0 ∧ s.tid (some x) = Function.update s.recTid t n x
    by_cases hdc : d = c
    · subst hdc
      rw [goto_call_self] at hd
      rcases hpc with rfl | ⟨rfl, -⟩ <;> cases hd
    · rw [goto_call_of_ne hdc] at hd
      rw [hkeep (hother d x hdc (Or.inr hd))]
      exact h.told d x hd
  · show Function.update s.recTid t n x ≠ 0 ∧ s.tid (some x) = Function.update s.recTid t n x
    have hxt : x ≠ t := by
      rintro rfl
      exact hx habsent
    rw [hkeep hxt]
    exact h.held x hx
  · have hxt : x ≠ t := by
      rintro rfl
      exact absurd (hi.born x (hi.alive hc)) (Nat.not_lt.mpr hx)
    exact (hkeep hxt).trans (h.unborn x hx)

/-- **The creator tells the number**, which musl's record of the thread then holds. -/
theorem Numbered.tell (h : s.Numbered) (hi : s.Inv) {t : ℕ} (hc : s.call c = .ptid t) :
    ({ s with tid := Function.update s.tid (some t) (s.recTid t) }.goto c (.start t)).Numbered := by
  obtain ⟨habsent, hother⟩ := hi.creating (c := c) (t := t) (by rw [hc]; rfl)
  have hkeep : ∀ {x}, x ≠ t →
      Function.update s.tid (some t) (s.recTid t) (some x) = s.tid (some x) :=
    fun hx => Function.update_of_ne (fun heq => hx (Option.some.inj heq)) ..
  have hnone : Function.update s.tid (some t) (s.recTid t) none = s.tid none :=
    Function.update_of_ne (Option.some_ne_none t).symm ..
  refine ⟨?_, h.counter, fun x hx => ?_, h.inj, fun d x hd => ?_, fun d x hd => ?_, fun x hx => ?_,
    h.unborn⟩
  · show Usable (Function.update s.tid (some t) (s.recTid t) none)
    rw [hnone]
    exact h.first
  · show _ ∧ _ ∧ _ ≠ Function.update s.tid (some t) (s.recTid t) none
    rw [hnone]
    exact h.given x hx
  · by_cases hdc : d = c
    · subst hdc
      rw [goto_call_self] at hd
      cases hd
    · rw [goto_call_of_ne hdc] at hd
      exact h.taken d x hd
  · show s.recTid x ≠ 0 ∧ Function.update s.tid (some t) (s.recTid t) (some x) = s.recTid x
    by_cases hdc : d = c
    · subst hdc
      rw [goto_call_self] at hd
      cases hd
      rw [Function.update_self]
      exact ⟨h.taken d t hc, rfl⟩
    · rw [goto_call_of_ne hdc] at hd
      rw [hkeep (hother d x hdc (Or.inr hd))]
      exact h.told d x hd
  · show s.recTid x ≠ 0 ∧ Function.update s.tid (some t) (s.recTid t) (some x) = s.recTid x
    have hxt : x ≠ t := by
      rintro rfl
      exact hx habsent
    rw [hkeep hxt]
    exact h.held x hx

theorem Numbered.cloneStep (h : s.Numbered) (hi : s.Inv) (hnum : s.Numbers (.step c))
    (hu : s.cloneStep c = some u) : u.Numbered := by
  have hlock : ∀ {pc : ClonePc}, s.lock c pc = some u → pc.counts = false → u.Numbered := by
    intro pc hl hpc
    simp only [Threads.lock, Option.ite_none_right_eq_some, Option.some.injEq] at hl
    obtain ⟨-, rfl⟩ := hl
    exact (h.goto c _ hpc).frame le_rfl rfl rfl rfl rfl rfl
  unfold Threads.cloneStep at hu
  cases hc : s.call c with
  | idle =>
    rw [hc] at hu
    cases hu
  | reapLock | tidLock t | linkLock t =>
    rw [hc] at hu
    exact hlock hu rfl
  | reapWalk i =>
    rw [hc] at hu
    cases hu
    unfold walk
    split
    · exact (h.goto c .alloc rfl).frame le_rfl rfl rfl rfl rfl rfl
    · rename_i t _
      split_ifs
      · exact (h.goto c (.reapJoin t) rfl).frame le_rfl rfl rfl rfl rfl rfl
      · exact (h.goto c (.reapWalk (i + 1)) rfl).frame le_rfl rfl rfl rfl rfl rfl
  | reapJoin t =>
    rw [hc] at hu
    simp only [Option.ite_none_right_eq_some, Option.some.injEq] at hu
    obtain ⟨-, rfl⟩ := hu
    exact (h.goto c (.reapFree t) rfl).frame le_rfl rfl rfl rfl rfl rfl
  | reapFree t =>
    rw [hc] at hu
    cases hu
    exact (h.goto c .reapLock rfl).frame le_rfl rfl rfl rfl rfl rfl
  | alloc =>
    rw [hc] at hu
    cases hu
    exact (h.goto c (.fill s.count) rfl).frame (Nat.le_succ _) rfl rfl rfl rfl rfl
  | fill t =>
    rw [hc] at hu
    cases hu
    have hnew := h.number hi (c := c) (t := t) (n := 0) (g := s.gTid) (.tidLock t)
      (by rw [hc]; rfl) le_rfl h.counter.2 (fun hne => absurd rfl hne) (Or.inl rfl)
    exact hnew.frame le_rfl rfl rfl rfl rfl rfl
  | tidTake t =>
    rw [hc] at hu
    cases hu
    obtain ⟨hbound, hfirst⟩ := hnum t hc
    have hnext : (s.gTid + 1).toNat = s.gTid.toNat + 1 := by
      rw [BitVec.toNat_add]
      exact Nat.mod_eq_of_lt (hbound.trans (by decide))
    have hnew := h.number hi (c := c) (t := t) (n := s.gTid + 1) (g := s.gTid + 1) (.ptid t)
      (by rw [hc]; rfl) (by omega) (by omega)
      (fun _ => ⟨by omega, le_rfl, fun heq => hfirst (by rw [← hnext, heq])⟩)
      (Or.inr ⟨rfl, fun hz => by rw [hz] at hnext; cases hnext⟩)
    exact hnew.frame le_rfl rfl rfl rfl rfl rfl
  | ptid t =>
    rw [hc] at hu
    cases hu
    exact (h.tell hi hc).frame le_rfl rfl rfl rfl rfl rfl
  | start t =>
    rw [hc] at hu
    cases hu
    have hgo := h.goto c (.noteTask t) rfl
    refine ⟨hgo.first, hgo.counter, hgo.given, hgo.inj, hgo.taken, hgo.told, fun x hx => ?_,
      hgo.unborn⟩
    by_cases hxt : x = t
    · subst hxt
      exact h.told c x hc
    · exact h.held x (by rwa [← Function.update_of_ne hxt .begin s.entry])
  | refused t | ret t =>
    rw [hc] at hu
    cases hu
    exact (h.goto c .idle rfl).frame le_rfl rfl rfl rfl rfl rfl
  | noteTask t =>
    rw [hc] at hu
    cases hu
    exact (h.goto c (.linkLock t) rfl).frame le_rfl rfl rfl rfl rfl rfl
  | link t =>
    rw [hc] at hu
    cases hu
    exact (h.goto c (.ret t) rfl).frame le_rfl rfl rfl rfl rfl rfl

theorem Numbered.entryStep (h : s.Numbered) {t : ℕ} (hu : s.entryStep t = some u) : u.Numbered := by
  obtain ⟨⟨hpresent, -, -⟩, e, finished, v, -, hv, rfl⟩ := entryStep_cases hu
  have hgo := h.enter hpresent e
  rcases hv with rfl | rfl
  · exact hgo.frame le_rfl rfl rfl rfl rfl rfl
  · exact hgo.frame le_rfl rfl rfl rfl rfl rfl

/-- **One step that meets the guard** keeps the numbers. -/
theorem Numbered.step (h : s.Numbered) (hi : s.Inv) {l : ThreadLabel} (hnum : s.Numbers l)
    (hu : s.step l = some u) : u.Numbered := by
  cases l with
  | clone c =>
    simp only [Threads.step, Option.ite_none_right_eq_some, Option.some.injEq] at hu
    obtain ⟨-, rfl⟩ := hu
    exact h.goto c _ rfl
  | step c => exact h.cloneStep hi hnum hu
  | allocFails c =>
    simp only [Threads.step, Option.ite_none_right_eq_some, Option.some.injEq] at hu
    obtain ⟨-, rfl⟩ := hu
    exact h.goto c _ rfl
  | startFails c =>
    simp only [Threads.step] at hu
    split at hu
    · rename_i t _
      cases hu
      exact (h.goto c (.refused t) rfl).frame le_rfl rfl rfl rfl rfl rfl
    · cases hu
  | entry t => exact h.entryStep hu
  | snapshotStart id =>
    simp only [Threads.step, Option.ite_none_right_eq_some, Option.some.injEq] at hu
    obtain ⟨⟨hcount, -⟩, rfl⟩ := hu
    -- no record has a number yet
    have hzero : ∀ t, s.recTid t = 0 := fun t => h.unborn t (hcount ▸ Nat.zero_le t)
    have habsent : ∀ t, s.entry t = .absent := fun t => (hi.unborn t (hcount ▸ Nat.zero_le t)).1
    refine ⟨?_, h.counter, fun t ht => absurd (hzero t) ht, h.inj, h.taken, fun d t hd => ?_,
      fun t ht => absurd (habsent t) ht, h.unborn⟩
    · show Usable (Function.update s.tid none (firstTid id) none)
      rw [Function.update_self]
      exact hnum
    · exact absurd (hzero t) (h.told d t hd).1

end Steps

/-! ## Runs -/

/-- **Thread identifiers are distinct** in every run whose counter keeps off the first context's
number and below the bound of an owner's word, where the first context's own number is usable. -/
theorem apart_while_numbered {id : BitVec 64} (hid : Usable (firstTid id)) {s : Threads}
    (h : Reachable (restrict step Numbers) (start id) s) : s.Apart := by
  have hboth : s.Inv ∧ s.Numbered := by
    refine h.invariant (I := fun s => s.Inv ∧ s.Numbered) ⟨inv_start id, numbered_start hid⟩ ?_
    rintro u l v ⟨hi, hn⟩ hv
    obtain ⟨hnum, hstep⟩ := restrict_eq_some.mp hv
    exact ⟨hi.step hstep, hn.step hi hnum hstep⟩
  exact hboth.2.apart

/-- The first context starts two threads, and the first of them runs. -/
def numbering : List ThreadLabel :=
  .clone none :: List.replicate 12 (.step none) ++ .entry 0 ::
    .clone none :: List.replicate 12 (.step none)

theorem apart_numbering :
    Usable (firstTid 7) ∧ ∃ s, Reachable (restrict step Numbers) (start 7) s ∧
      s.tid (some 0) = 2 ∧ s.tid (some 1) = 3 ∧ s.entry 0 = .running ∧ s.entry 1 = .begin ∧
      s.Apart := by
  refine ⟨by decide, ?_⟩
  have hrun : (run (restrict step Numbers) (start 7) numbering).map
      (fun s => (s.tid (some 0), s.tid (some 1), s.entry 0, s.entry 1)) =
        some (2, 3, .running, .begin) := by decide +kernel
  obtain ⟨s, hs, hpc⟩ := Option.map_eq_some_iff.mp hrun
  simp only [Prod.mk.injEq] at hpc
  have hreach : Reachable (restrict step Numbers) (start 7) s := ⟨numbering, hs⟩
  exact ⟨s, hreach, hpc.1, hpc.2.1, hpc.2.2.1, hpc.2.2.2, apart_while_numbered (by decide) hreach⟩

/-- The first context's identity is the number that the counter gives first. -/
def colliding : List ThreadLabel := .clone none :: List.replicate 12 (.step none) ++ [.entry 0]

/-- **Two contexts have one number**, and a recursive mutex that the first owns is taken again by
the other, which gives it back. -/
theorem tids_collide :
    ∃ s, Reachable step (start 2) s ∧ s.Live none ∧ s.Live (some 0) ∧
      s.tid none = s.tid (some 0) ∧ ¬ s.Apart ∧
      ∃ m : OwnerMutex, m.own = s.tid none ∧
        m.trylockOwner (s.tid (some 0)) = ({ m with count := 1 }, .ok) ∧
        (m.unlockOwner (s.tid (some 0))).2 = .ok := by
  have hrun : (run step (start 2) colliding).map
    (fun s => (s.tid none, s.tid (some 0), s.entry 0)) =
      some (2, 2, .running) := by decide +kernel
  obtain ⟨s, hs, hpc⟩ := Option.map_eq_some_iff.mp hrun
  simp only [Prod.mk.injEq] at hpc
  obtain ⟨hfirst, hthread, hentry⟩ := hpc
  have hlive : s.Live (some 0) := by
    show s.entry 0 ≠ .absent ∧ s.entry 0 ≠ .ended
    rw [hentry]
    exact ⟨nofun, nofun⟩
  have hsame : s.tid none = s.tid (some 0) := hfirst.trans hthread.symm
  refine ⟨s, ⟨colliding, hs⟩, trivial, hlive, hsame, fun h => ?_, ⟨1, 2, 0, 0⟩, ?_⟩
  · exact h.distinct none (some 0) trivial hlive nofun hsame
  · rw [hfirst, hthread]
    decide

end Threads

end OpenkalMusl
