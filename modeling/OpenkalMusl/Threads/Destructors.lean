import OpenkalMusl.Threads.Variables

/-!
# The rounds of destructors

The keys, the values and the storage of a thread belong together: a key of a variable holds storage
of that variable or nothing, and the storage that a thread has is apart. The storage of a variable
counts down once in each round, so the rounds that passed its key and the count in its header add up
to three at least; and while one holds storage, every round sets a value again, so that another
round follows.

## Main definitions

* `TlsPhase.passed`: how many rounds have passed a key
* `TlsThread.Inv`: keys, values and storage belong together, and the count of the rounds
* `TlsThread.Visited`: what the loop does with one key

## Main results

* `TlsThread.Inv.getAddress`: what is answered is storage of the variable
* `TlsThread.Inv.visited`: `tls_release` finds its header
* `TlsThread.Inv.step`: one step keeps the invariant
-/

namespace OpenkalMusl

open Transition

namespace TlsPhase

/-- How many rounds have passed the key `k`. -/
def passed (k : Fin pthreadKeysMax) : TlsPhase → ℕ
  | .living => 0
  | .turn j i | .within j i => j + if k < i then 1 else 0
  | .ended => destructorIterations

/-- A value of the key `k` waits for the next round. -/
def Waits (k : Fin pthreadKeysMax) : TlsPhase → Prop
  | .living => True
  | .turn _ i | .within _ i => k < i
  | .ended => False

/-- The round, while there is one. -/
def inRound : TlsPhase → Option ℕ
  | .turn j _ | .within j _ => some j
  | .living | .ended => none

/-- The last round, or after it. -/
def Last : TlsPhase → Prop
  | .living => False
  | .turn j _ | .within j _ => j + 1 = destructorIterations
  | .ended => True

/-- The loop has turned to the key `k`, and the key behind it is next. -/
theorem passed_next {j : ℕ} {k : Fin pthreadKeysMax} {phase : TlsPhase}
    (h : phase = .turn j (k + 1) ∨ phase = .within j (k + 1)) (k' : Fin pthreadKeysMax) :
    phase.passed k' = (turn j k).passed k' + if k' = k then 1 else 0 := by
  have heq : k' = k ↔ k'.val = k.val := Fin.ext_iff
  rcases h with rfl | rfl <;> simp only [passed, heq] <;> split_ifs <;> omega

theorem waits_next {j : ℕ} {k : Fin pthreadKeysMax} {phase : TlsPhase}
    (h : phase = .turn j (k + 1) ∨ phase = .within j (k + 1)) (k' : Fin pthreadKeysMax) :
    phase.Waits k' ↔ (turn j k).Waits k' ∨ k' = k := by
  have heq : k' = k ↔ k'.val = k.val := Fin.ext_iff
  rcases h with rfl | rfl <;> simp only [Waits, heq] <;> omega

theorem passed_end {j i : ℕ} (hi : pthreadKeysMax ≤ i) (k : Fin pthreadKeysMax) :
    (turn j i).passed k = j + 1 := by
  simp [passed, k.isLt.trans_le hi]

theorem waits_end {j i : ℕ} (hi : pthreadKeysMax ≤ i) (k : Fin pthreadKeysMax) :
    (turn j i).Waits k := k.isLt.trans_le hi

theorem inRound_next {j i : ℕ} {phase : TlsPhase}
    (h : phase = .turn j i ∨ phase = .within j i) : phase.inRound = some j := by
  rcases h with rfl | rfl <;> rfl

theorem last_of_inRound {j : ℕ} {phase : TlsPhase} (h : phase.inRound = some j) :
    phase.Last ↔ j + 1 = destructorIterations := by
  cases phase with
  | living | ended => simp [inRound] at h
  | turn j' i | within j' i =>
    simp only [inRound, Option.some.injEq] at h
    simp [Last, h]

end TlsPhase

namespace TlsThread

variable {ι : Type*} {controls : ι → EmutlsControl} {s t : TlsThread ι}

/-! ## Keys, values and storage -/

/-- The keys of the variables are their own and `tls_release` is theirs; what such a key holds is
storage, laid out and apart from other storage; a key of the program's own holds what the program
set it to. Storage that waits has another round follow, its count and the rounds that passed are
three at least, and only the last round frees. -/
structure Inv (controls : ι → EmutlsControl) (s : TlsThread ι) : Prop where
  indexed : ∀ c k, s.index c = some k → s.keys k = some .tlsRelease
  one : ∀ c c' k, s.index c = some k → s.index c' = some k → c = c'
  vacant : ∀ k, s.keys k = none → s.tsd k = 0
  held : ∀ k, s.keys k = some .tlsRelease → s.tsd k ≠ 0 → ∃ st ∈ s.live, st.key = k
  owner : ∀ st ∈ s.live, s.index st.control = some st.key
  value : ∀ st ∈ s.live, s.tsd st.key = st.addr
  laid : ∀ st ∈ s.live, st.Laid (controls st.control)
  apart : ∀ st ∈ s.live, ∀ st' ∈ s.live, st = st' ∨ st.block.Apart st'.block
  own : ∀ k, s.Own k → s.tsd k ≠ 0 → .set k (s.tsd k) ∈ s.log
  waits : ∀ st ∈ s.live, s.phase.Waits st.key → s.used = true
  spent : ∀ st ∈ s.live, destructorIterations - 1 ≤ st.rounds + s.phase.passed st.key
  atMost : ∀ st ∈ s.live, st.rounds ≤ destructorIterations - 1
  rounds : ∀ j, s.phase.inRound = some j → j < destructorIterations
  last : ∀ a j, .freed a j ∈ s.log → j + 1 = destructorIterations ∧ s.phase.Last

theorem Inv.addr_pos (h : s.Inv controls) {st : TlsStorage ι} (hst : st ∈ s.live) :
    st.addr ≠ 0 := by
  have := (h.laid st hst).header
  unfold tlsHeaderSize at this
  omega

theorem Inv.keys_eq (h : s.Inv controls) {st : TlsStorage ι} (hst : st ∈ s.live) :
    s.keys st.key = some .tlsRelease := h.indexed _ _ (h.owner st hst)

/-- A thread has at most one block at an address, and it is found by its variable or its base. -/
theorem Inv.eq_of_addr (h : s.Inv controls) {st st' : TlsStorage ι} (hst : st ∈ s.live)
    (hst' : st' ∈ s.live) (haddr : st.addr = st'.addr) : st = st' :=
  (h.apart st hst st' hst').resolve_right fun hapart =>
    ((h.laid st hst).ne_of_apart (h.laid st' hst') hapart).1 haddr

theorem Inv.eq_of_base (h : s.Inv controls) {st st' : TlsStorage ι} (hst : st ∈ s.live)
    (hst' : st' ∈ s.live) (hbase : st.base = st'.base) : st = st' :=
  (h.apart st hst st' hst').resolve_right fun hapart =>
    ((h.laid st hst).ne_of_apart (h.laid st' hst') hapart).2 hbase

theorem Inv.eq_of_key (h : s.Inv controls) {st st' : TlsStorage ι} (hst : st ∈ s.live)
    (hst' : st' ∈ s.live) (hkey : st.key = st'.key) : st = st' :=
  h.eq_of_addr hst hst' (by rw [← h.value st hst, ← h.value st' hst', hkey])

theorem inv_fresh : (fresh ι).Inv controls where
  indexed := by simp [fresh]
  one := by simp [fresh]
  vacant := by simp [fresh]
  held := by simp [fresh]
  owner := by simp [fresh]
  value := by simp [fresh]
  laid := by simp [fresh]
  apart := by simp [fresh]
  own := by simp [fresh]
  waits := by simp [fresh]
  spent := by simp [fresh]
  atMost := by simp [fresh]
  rounds := by simp [fresh, TlsPhase.inRound]
  last := by simp [fresh]

/-! ## Calls of the program -/

theorem Inv.created (h : s.Inv controls) {k : Fin pthreadKeysMax} (hk : s.keys k = none)
    (dtor : TlsDtor) (next : Fin pthreadKeysMax) :
    Inv controls { s with
      keys := Function.update s.keys k (some dtor)
      nextKey := next } where
  indexed c k' hc := by
    have hkeys := h.indexed c k' hc
    have hne : k' ≠ k := fun e => by simp [e, hk] at hkeys
    simpa [Function.update_of_ne hne] using hkeys
  one := h.one
  vacant k' hk' := by
    rcases eq_or_ne k' k with rfl | hne
    · simp at hk'
    · exact h.vacant k' (by simpa [Function.update_of_ne hne] using hk')
  held k' hk' hv := by
    rcases eq_or_ne k' k with rfl | hne
    -- a key that was vacant has no value in any thread
    · exact absurd (h.vacant k' hk) hv
    · exact h.held k' (by simpa [Function.update_of_ne hne] using hk') hv
  owner := h.owner
  value := h.value
  laid := h.laid
  apart := h.apart
  own k' hk' hv := by
    rcases eq_or_ne k' k with rfl | hne
    · exact absurd (h.vacant k' hk) hv
    · exact h.own k' (by simpa [Own, Function.update_of_ne hne] using hk') hv
  waits := h.waits
  spent := h.spent
  atMost := h.atMost
  rounds := h.rounds
  last := h.last

/-- A variable that had no key is given one. -/
theorem Inv.given [DecidableEq ι] (h : s.Inv controls) {k : Fin pthreadKeysMax}
    (hk : s.keys k = some .tlsRelease) (hfree : ∀ d, s.index d ≠ some k) {c : ι}
    (hc : s.index c = none) :
    Inv controls { s with index := Function.update s.index c (some k) } where
  indexed c' k' hc' := by
    rcases eq_or_ne c' c with rfl | hne
    · have hk' : k = k' := by simpa using hc'
      exact hk' ▸ hk
    · exact h.indexed c' k' (by simpa [Function.update_of_ne hne] using hc')
  one c₁ c₂ k' h₁ h₂ := by
    -- two of one key: both are the variable, or one has a key that none had
    simp only [Function.update_apply] at h₁ h₂
    split_ifs at h₁ h₂ with e₁ e₂ e₂
    · rw [e₁, e₂]
    · exact absurd (h₂.trans h₁.symm) (hfree c₂)
    · exact absurd (h₁.trans h₂.symm) (hfree c₁)
    · exact h.one c₁ c₂ k' h₁ h₂
  vacant := h.vacant
  held := h.held
  owner st hst := by
    have howner := h.owner st hst
    have hne : st.control ≠ c := fun e => by simp [e, hc] at howner
    simpa [Function.update_of_ne hne] using howner
  value := h.value
  laid := h.laid
  apart := h.apart
  own := h.own
  waits := h.waits
  spent := h.spent
  atMost := h.atMost
  rounds := h.rounds
  last := h.last

theorem Inv.indexOf [DecidableEq ι] (h : s.Inv controls) {c : ι} {k : Fin pthreadKeysMax}
    (hs : s.indexOf c = some (k, t)) : t.Inv controls ∧ t.index c = some k := by
  rcases indexOf_eq_some hs with ⟨hc, rfl⟩ | ⟨hc, hk, rfl⟩
  · exact ⟨h, hc⟩
  · have hfree : ∀ d, s.index d ≠ some k := fun d hd => by simp [h.indexed d k hd] at hk
    exact ⟨(h.created hk .tlsRelease k).given (Function.update_self ..) hfree hc,
      Function.update_self ..⟩

theorem Inv.keyDelete (h : s.Inv controls) {k : Fin pthreadKeysMax} (hk : s.Own k) :
    (s.keyDelete k).Inv controls := by
  -- the keys of variables are not the program's to delete
  have hne : ∀ {k'}, s.keys k' = some .tlsRelease → k' ≠ k := by
    rintro k' hk' rfl
    simp [Own, hk'] at hk
  exact {
    h with
    indexed := fun c k' hc => by
      have hkeys := h.indexed c k' hc
      simpa [TlsThread.keyDelete, Function.update_of_ne (hne hkeys)] using hkeys
    vacant := fun k' hk' => by
      rcases eq_or_ne k' k with rfl | hk'k
      · simp [TlsThread.keyDelete]
      · simp only [TlsThread.keyDelete, Function.update_of_ne hk'k] at hk' ⊢
        exact h.vacant k' hk'
    held := fun k' hk' hv => by
      have hk'k : k' ≠ k := fun e => by simp [TlsThread.keyDelete, e] at hk'
      simp only [TlsThread.keyDelete, Function.update_of_ne hk'k] at hk' hv
      exact h.held k' hk' hv
    value := fun st hst => by
      simpa [TlsThread.keyDelete, Function.update_of_ne (hne (h.keys_eq hst))] using h.value st hst
    own := fun k' hk' hv => by
      have hk'k : k' ≠ k := fun e => by simp [TlsThread.keyDelete, e] at hv
      simp only [TlsThread.keyDelete, Own, Function.update_of_ne hk'k] at hk' hv ⊢
      exact h.own k' hk' hv }

/-- The program sets a value of a key of its own. -/
theorem Inv.set (h : s.Inv controls) {k : Fin pthreadKeysMax} (hk : s.Own k) (v : ℕ) :
    (setspecific { s with log := s.log ++ [.set k v] } k v).Inv controls := by
  have hne : ∀ {k'}, s.keys k' = some .tlsRelease → k' ≠ k := by
    rintro k' hk' rfl
    simp [Own, hk'] at hk
  exact {
    indexed := by simpa using h.indexed
    one := by simpa using h.one
    vacant := fun k' hk' => by
      rw [setspecific_keys] at hk'
      have hk'k : k' ≠ k := by
        rintro rfl
        have hnone : s.keys k' = none := hk'
        simp [Own, hnone] at hk
      rw [setspecific_tsd, Function.update_of_ne hk'k]
      exact h.vacant k' hk'
    held := fun k' hk' hv => by
      rw [setspecific_keys] at hk'
      rw [setspecific_tsd, Function.update_of_ne (hne hk')] at hv
      rw [setspecific_live]
      exact h.held k' hk' hv
    owner := by simpa using h.owner
    value := fun st hst => by
      rw [setspecific_live] at hst
      rw [setspecific_tsd, Function.update_of_ne (hne (h.keys_eq hst))]
      exact h.value st hst
    laid := by simpa using h.laid
    apart := by simpa using h.apart
    own := fun k' hk' hv => by
      -- what is there now was just set, or it was there before
      simp only [Own, setspecific_keys, setspecific_tsd, setspecific_log] at hk' hv ⊢
      rcases eq_or_ne k' k with rfl | hk'k
      · simp
      · rw [Function.update_of_ne hk'k] at hv ⊢
        exact List.mem_append_left _ (h.own k' hk' hv)
    waits := fun st hst hw => by
      rw [setspecific_live] at hst
      rw [setspecific_phase] at hw
      exact setspecific_used .. |>.mpr (.inl (h.waits st hst hw))
    spent := by simpa using h.spent
    atMost := by simpa using h.atMost
    rounds := by simpa using h.rounds
    last := by simpa using h.last }

/-- New storage is made. -/
theorem Inv.make (h : s.Inv controls) {c : ι} {k : Fin pthreadKeysMax} {base : ℕ}
    (hc : s.index c = some k) (hv : s.tsd k = 0)
    (ha : s.Allocates (controls c).alignment (controls c).length base) :
    (s.make controls (storageAt controls c k base)).Inv controls := by
  have hlaid := laid_storageAt controls k ha
  have hpos : (storageAt controls c k base).addr ≠ 0 := by
    have := hlaid.header
    unfold tlsHeaderSize at this
    omega
  have hne : ∀ st ∈ s.live, st.key ≠ k := fun st hst e => by
    have := h.value st hst
    rw [e, hv] at this
    exact h.addr_pos hst this.symm
  -- the new storage, or what there was before
  have hmem : ∀ {st}, st ∈ (s.make controls (storageAt controls c k base)).live →
      st = storageAt controls c k base ∨ st ∈ s.live := by
    intro st hst
    rwa [TlsThread.make, setspecific_live, List.mem_cons] at hst
  exact {
    indexed := by simpa [TlsThread.make] using h.indexed
    one := by simpa [TlsThread.make] using h.one
    vacant := fun k' hk' => by
      simp only [TlsThread.make, setspecific_keys, setspecific_tsd] at hk' ⊢
      have hk'k : k' ≠ k := fun e => by simp [e, h.indexed c k hc] at hk'
      rw [storageAt, Function.update_of_ne hk'k]
      exact h.vacant k' hk'
    held := fun k' hk' hv' => by
      simp only [TlsThread.make, setspecific_keys, setspecific_tsd, setspecific_live] at hk' hv' ⊢
      rcases eq_or_ne k' k with rfl | hk'k
      · exact ⟨_, List.mem_cons_self, rfl⟩
      · rw [storageAt, Function.update_of_ne hk'k] at hv'
        obtain ⟨st, hst, hkey⟩ := h.held k' hk' hv'
        exact ⟨st, List.mem_cons_of_mem _ hst, hkey⟩
    owner := fun st hst => by
      simp only [TlsThread.make, setspecific_index]
      rcases hmem hst with rfl | hst
      · exact hc
      · exact h.owner st hst
    value := fun st hst => by
      simp only [TlsThread.make, setspecific_tsd]
      rcases hmem hst with rfl | hst
      · exact Function.update_self ..
      · rw [storageAt, Function.update_of_ne (hne st hst)]
        exact h.value st hst
    laid := fun st hst => by
      rcases hmem hst with rfl | hst
      · exact hlaid
      · exact h.laid st hst
    apart := fun st hst st' hst' => by
      rcases hmem hst with rfl | hst <;> rcases hmem hst' with rfl | hst'
      · exact .inl rfl
      · exact .inr (ha.2.2.2.2.2 st' hst').symm
      · exact .inr (ha.2.2.2.2.2 st hst)
      · exact h.apart st hst st' hst'
    own := fun k' hk' hv' => by
      simp only [TlsThread.make, Own, setspecific_keys, setspecific_tsd, setspecific_log]
        at hk' hv' ⊢
      have hk'k : k' ≠ k := fun e => by simp [e, h.indexed c k hc] at hk'
      rw [storageAt, Function.update_of_ne hk'k] at hv' ⊢
      exact h.own k' hk' hv'
    waits := fun _ _ _ => by
      -- the value was null, so that setting it is noticed
      refine (setspecific_used ..).mpr (.inr ?_)
      exact fun e => hpos (e.symm.trans hv)
    spent := fun st hst => by
      simp only [TlsThread.make, setspecific_phase]
      rcases hmem hst with rfl | hst
      · exact Nat.le_add_right _ _
      · exact h.spent st hst
    atMost := fun st hst => by
      rcases hmem hst with rfl | hst
      · exact le_rfl
      · exact h.atMost st hst
    rounds := by simpa [TlsThread.make] using h.rounds
    last := by simpa [TlsThread.make] using h.last }

/-- The address that is answered is that of storage of the variable. -/
theorem Inv.getAddress [DecidableEq ι] (h : s.Inv controls) {c : ι} {base p : ℕ}
    (hs : s.getAddress controls c base = some (p, t)) :
    t.Inv controls ∧ ∃ st ∈ t.live, st.control = c ∧ st.addr = p := by
  obtain ⟨k, u, hu, ⟨hv, rfl, rfl⟩ | ⟨hv, ha, rfl, rfl⟩⟩ := getAddress_eq_some controls hs
  · obtain ⟨hinv, hc⟩ := h.indexOf hu
    obtain ⟨st, hst, rfl⟩ := hinv.held k (hinv.indexed c k hc) hv
    exact ⟨hinv, st, hst, hinv.one _ _ _ (hinv.owner st hst) hc, (hinv.value st hst).symm⟩
  · obtain ⟨hinv, hc⟩ := h.indexOf hu
    refine ⟨hinv.make hc hv ha, storageAt controls c k base, ?_, rfl, rfl⟩
    simp [TlsThread.make]

/-! ## The loop -/

/-- What the loop does with the key `k` in the round `j`: the value is cleared, and it was no
variable's; the storage counts down and is set again; or it is freed. -/
inductive Visited (s : TlsThread ι) (j : ℕ) (k : Fin pthreadKeysMax) : TlsThread ι → Prop
  | cleared (phase : TlsPhase) (hphase : phase = .turn j (k + 1) ∨ phase = .within j (k + 1))
      (hk : ∀ st ∈ s.live, st.key ≠ k) :
      Visited s j k { s with
        tsd := Function.update s.tsd k 0
        phase := phase }
  | again (st : TlsStorage ι) (hst : st ∈ s.live) (hkey : st.key = k) (hrounds : st.rounds ≠ 0) :
      Visited s j k { s with
        live := countDown s.live st.addr
        used := true
        phase := .turn j (k + 1) }
  | freed (st : TlsStorage ι) (hst : st ∈ s.live) (hkey : st.key = k) (hrounds : st.rounds = 0) :
      Visited s j k { s with
        tsd := Function.update s.tsd k 0
        live := s.live.filter fun st' => st'.base ≠ st.base
        phase := .turn j (k + 1)
        log := s.log ++ [.freed st.addr j] }

/-- The header that `tls_release` reads is found. -/
theorem Inv.find_addr (h : s.Inv controls) {st : TlsStorage ι} (hst : st ∈ s.live) :
    (s.live.find? fun st' => st'.addr = st.addr) = some st := by
  cases hfind : s.live.find? fun st' => st'.addr = st.addr with
  | none =>
    have := List.find?_eq_none.mp hfind st hst
    simp at this
  | some st' =>
    have haddr : st'.addr = st.addr := by simpa using List.find?_some hfind
    rw [h.eq_of_addr (List.mem_of_find?_eq_some hfind) hst haddr]

theorem Inv.visit_release (h : s.Inv controls) (j : ℕ) {st : TlsStorage ι} (hst : st ∈ s.live) :
    s.visit j st.key = tlsRelease
      { s with
        tsd := Function.update s.tsd st.key 0
        phase := .turn j (st.key + 1) } st.addr j := by
  simp only [visit, h.value st hst, h.keys_eq hst, if_neg (h.addr_pos hst)]

theorem Inv.visited (h : s.Inv controls) (j : ℕ) (k : Fin pthreadKeysMax) :
    ∃ t, s.visit j k = some t ∧ Visited s j k t := by
  -- whether the key is of a variable that has storage
  by_cases hlive : ∃ st ∈ s.live, st.key = k
  · obtain ⟨st, hst, rfl⟩ := hlive
    rw [h.visit_release j hst, TlsThread.tlsRelease, h.find_addr hst]
    by_cases hrounds : st.rounds = 0
    · exact ⟨_, by simp [hrounds], .freed st hst rfl hrounds⟩
    · -- the value comes back to what it was before the loop cleared it
      have hback : Function.update s.tsd st.key st.addr = s.tsd := by
        rw [← h.value st hst, Function.update_eq_self]
      refine ⟨_, ?_, .again st hst rfl hrounds⟩
      simp [hrounds, setspecific, (h.addr_pos hst).symm, hback]
  · have hk : ∀ st ∈ s.live, st.key ≠ k := fun st hst e => hlive ⟨st, hst, e⟩
    by_cases hv : s.tsd k = 0
    · exact ⟨_, by simp [visit, hv], .cleared _ (.inl rfl) hk⟩
    · match hkeys : s.keys k with
      | none | some .nodtor =>
        exact ⟨_, by simp [visit, hv, hkeys], .cleared _ (.inl rfl) hk⟩
      | some .program => exact ⟨_, by simp [visit, hv, hkeys], .cleared _ (.inr rfl) hk⟩
      | some .tlsRelease => exact absurd (h.held k hkeys hv) hlive

theorem Visited.inRound {j : ℕ} {k : Fin pthreadKeysMax} (h : Visited s j k t) :
    t.phase = .turn j (k + 1) ∨ t.phase = .within j (k + 1) := by
  cases h with
  | cleared phase hphase => exact hphase
  | again => exact .inl rfl
  | freed => exact .inl rfl

section Turned

variable {j : ℕ} {k : Fin pthreadKeysMax} {phase : TlsPhase}

theorem Inv.mem_countDown (h : s.Inv controls) {st st' : TlsStorage ι} (hst : st ∈ s.live) :
    st' ∈ countDown s.live st.addr ↔
      st' ∈ s.live ∧ st'.key ≠ st.key ∨ st' = { st with rounds := st.rounds - 1 } := by
  constructor
  · intro hst'
    obtain ⟨st₀, hst₀, rfl⟩ := List.mem_map.mp hst'
    split_ifs with haddr
    · rw [h.eq_of_addr hst₀ hst haddr]
      exact .inr rfl
    · exact .inl ⟨hst₀, fun e => haddr (by rw [h.eq_of_key hst₀ hst e])⟩
  · rintro (⟨hst', hkey⟩ | rfl)
    · refine List.mem_map.mpr ⟨st', hst', if_neg fun e => hkey ?_⟩
      rw [h.eq_of_addr hst' hst e]
    · exact List.mem_map.mpr ⟨st, hst, if_pos rfl⟩

theorem Inv.mem_freed (h : s.Inv controls) {st st' : TlsStorage ι} (hst : st ∈ s.live) :
    (st' ∈ s.live.filter fun st' => st'.base ≠ st.base) ↔ st' ∈ s.live ∧ st'.key ≠ st.key := by
  rw [List.mem_filter]
  refine and_congr_right fun hst' => ?_
  rw [decide_eq_true_iff, not_iff_not]
  exact ⟨fun e => by rw [h.eq_of_base hst' hst e], fun e => by rw [h.eq_of_key hst' hst e]⟩

/-- The next key is of the same round. -/
theorem Inv.next (h : s.Inv controls) (hphase : s.phase = .turn j k)
    (hnext : phase = .turn j (k + 1) ∨ phase = .within j (k + 1)) :
    (∀ j', phase.inRound = some j' → j' < destructorIterations) ∧
      ∀ a j', .freed a j' ∈ s.log → j' + 1 = destructorIterations ∧ phase.Last := by
  have hin : s.phase.inRound = some j := by rw [hphase]; rfl
  constructor
  · intro j' hj'
    rw [TlsPhase.inRound_next hnext] at hj'
    exact Option.some.inj hj' ▸ h.rounds j hin
  · intro a j' hj'
    obtain ⟨hlast, hl⟩ := h.last a j' hj'
    rw [TlsPhase.last_of_inRound hin] at hl
    exact ⟨hlast, (TlsPhase.last_of_inRound (TlsPhase.inRound_next hnext)).mpr hl⟩

theorem Inv.cleared (h : s.Inv controls) (hphase : s.phase = .turn j k)
    (hnext : phase = .turn j (k + 1) ∨ phase = .within j (k + 1)) (hk : ∀ st ∈ s.live, st.key ≠ k) :
    Inv controls { s with
      tsd := Function.update s.tsd k 0
      phase := phase } where
  indexed := h.indexed
  one := h.one
  vacant k' hk' := by simp only [Function.update_apply, h.vacant k' hk', ite_self]
  held k' hk' hv' := by
    have hne : k' ≠ k := fun e => by simp [e] at hv'
    simp only [Function.update_of_ne hne] at hv'
    exact h.held k' hk' hv'
  owner := h.owner
  value st hst := by
    simp only [Function.update_of_ne (hk st hst)]
    exact h.value st hst
  laid := h.laid
  apart := h.apart
  own k' hk' hv' := by
    have hne : k' ≠ k := fun e => by simp [e] at hv'
    simp only [Function.update_of_ne hne] at hv' ⊢
    exact h.own k' hk' hv'
  waits st hst hw := by
    have hwaits := ((TlsPhase.waits_next hnext st.key).mp hw).resolve_right (hk st hst)
    exact h.waits st hst (hphase ▸ hwaits)
  spent st hst := by
    -- no storage has the key, so that the round passes none
    have hspent := h.spent st hst
    rw [hphase] at hspent
    simp only [TlsPhase.passed_next hnext, if_neg (hk st hst)]
    exact hspent
  atMost := h.atMost
  rounds := (h.next hphase hnext).1
  last := (h.next hphase hnext).2

/-- The storage of the key counts down: what it counts less has passed. -/
theorem Inv.again (h : s.Inv controls) (hphase : s.phase = .turn j k) {st : TlsStorage ι}
    (hst : st ∈ s.live) (hkey : st.key = k) :
    Inv controls { s with
      live := countDown s.live st.addr
      used := true
      phase := .turn j (k + 1) } := by
  have hmem : ∀ {st'}, st' ∈ countDown s.live st.addr →
      ∃ st₀ ∈ s.live, ∃ r, st' = { st₀ with rounds := r } := by
    intro st' hst'
    rcases (h.mem_countDown hst).mp hst' with ⟨hst', -⟩ | rfl
    · exact ⟨st', hst', st'.rounds, rfl⟩
    · exact ⟨st, hst, _, rfl⟩
  exact {
    indexed := h.indexed
    one := h.one
    vacant := h.vacant
    held := fun k' hk' hv' => by
      obtain ⟨st', hst', hkey'⟩ := h.held k' hk' hv'
      refine ⟨_, List.mem_map_of_mem hst', ?_⟩
      split_ifs <;> exact hkey'
    owner := fun st' hst' => by
      obtain ⟨st₀, hst₀, r, rfl⟩ := hmem hst'
      exact h.owner st₀ hst₀
    value := fun st' hst' => by
      obtain ⟨st₀, hst₀, r, rfl⟩ := hmem hst'
      exact h.value st₀ hst₀
    laid := fun st' hst' => by
      obtain ⟨st₀, hst₀, r, rfl⟩ := hmem hst'
      exact ⟨(h.laid st₀ hst₀).aligned, (h.laid st₀ hst₀).header, (h.laid st₀ hst₀).inside⟩
    apart := fun st₁ hst₁ st₂ hst₂ => by
      -- a count is no part of a block
      rcases (h.mem_countDown hst).mp hst₁ with ⟨h₁, hk₁⟩ | rfl <;>
        rcases (h.mem_countDown hst).mp hst₂ with ⟨h₂, hk₂⟩ | rfl
      · exact h.apart st₁ h₁ st₂ h₂
      · exact .inr ((h.apart st₁ h₁ st hst).resolve_left fun e => hk₁ (by rw [e]))
      · exact .inr ((h.apart st hst st₂ h₂).resolve_left fun e => hk₂ (by rw [e]))
      · exact .inl rfl
    own := h.own
    waits := fun _ _ _ => rfl
    spent := fun st' hst' => by
      simp only [TlsPhase.passed_next (.inl rfl), ← hphase]
      rcases (h.mem_countDown hst).mp hst' with ⟨hst', hk'⟩ | rfl
      · rw [if_neg (hkey ▸ hk')]
        exact h.spent st' hst'
      · have := h.spent st hst
        simp only [if_pos hkey]
        omega
    atMost := fun st' hst' => by
      rcases (h.mem_countDown hst).mp hst' with ⟨hst', -⟩ | rfl
      · exact h.atMost st' hst'
      · exact (Nat.sub_le _ _).trans (h.atMost st hst)
    rounds := (h.next hphase (.inl rfl)).1
    last := (h.next hphase (.inl rfl)).2 }

/-- A count of nothing at a key that is still to come in this round: three rounds passed it. -/
theorem Inv.last_round (h : s.Inv controls) (hphase : s.phase = .turn j k) {st : TlsStorage ι}
    (hst : st ∈ s.live) (hkey : st.key = k) (hrounds : st.rounds = 0) :
    j + 1 = destructorIterations := by
  have hspent := h.spent st hst
  have hj := h.rounds j (by rw [hphase]; rfl)
  simp only [hphase, hkey, hrounds, TlsPhase.passed, lt_irrefl, if_false] at hspent
  unfold destructorIterations at *
  omega

/-- The storage of the key is freed. -/
theorem Inv.freed (h : s.Inv controls) (hphase : s.phase = .turn j k) {st : TlsStorage ι}
    (hst : st ∈ s.live) (hkey : st.key = k) (hrounds : st.rounds = 0) :
    Inv controls { s with
      tsd := Function.update s.tsd k 0
      live := s.live.filter fun st' => st'.base ≠ st.base
      phase := .turn j (k + 1)
      log := s.log ++ [.freed st.addr j] } := by
  have hmem : ∀ {st'}, (st' ∈ s.live.filter fun st' => st'.base ≠ st.base) →
      st' ∈ s.live ∧ st'.key ≠ k := fun hst' => hkey ▸ (h.mem_freed hst).mp hst'
  exact {
    indexed := h.indexed
    one := h.one
    vacant := fun k' hk' => by simp only [Function.update_apply, h.vacant k' hk', ite_self]
    held := fun k' hk' hv' => by
      have hne : k' ≠ k := fun e => by simp [e] at hv'
      simp only [Function.update_of_ne hne] at hv'
      obtain ⟨st', hst', rfl⟩ := h.held k' hk' hv'
      exact ⟨st', (h.mem_freed hst).mpr ⟨hst', hkey.symm ▸ hne⟩, rfl⟩
    owner := fun st' hst' => h.owner st' (hmem hst').1
    value := fun st' hst' => by
      simp only [Function.update_of_ne (hmem hst').2]
      exact h.value st' (hmem hst').1
    laid := fun st' hst' => h.laid st' (hmem hst').1
    apart := fun st₁ h₁ st₂ h₂ => h.apart st₁ (hmem h₁).1 st₂ (hmem h₂).1
    own := fun k' hk' hv' => by
      have hne : k' ≠ k := fun e => by simp [e] at hv'
      simp only [Function.update_of_ne hne] at hv' ⊢
      exact List.mem_append_left _ (h.own k' hk' hv')
    waits := fun st' hst' hw => by
      have hwaits := ((TlsPhase.waits_next (.inl rfl) st'.key).mp hw).resolve_right (hmem hst').2
      exact h.waits st' (hmem hst').1 (hphase ▸ hwaits)
    spent := fun st' hst' => by
      simp only [TlsPhase.passed_next (.inl rfl), ← hphase, if_neg (hmem hst').2]
      exact h.spent st' (hmem hst').1
    atMost := fun st' hst' => h.atMost st' (hmem hst').1
    rounds := (h.next hphase (.inl rfl)).1
    last := fun a j' hj' => by
      -- this is the only step that frees
      have hj := h.last_round hphase hst hkey hrounds
      rcases List.mem_append.mp hj' with hj' | hj'
      · exact ⟨(h.last a j' hj').1, hj⟩
      · obtain ⟨-, rfl⟩ := TlsEvent.freed.inj (List.mem_singleton.mp hj')
        exact ⟨hj, hj⟩ }

theorem Visited.inv (hv : Visited s j k t) (h : s.Inv controls) (hphase : s.phase = .turn j k) :
    t.Inv controls := by
  cases hv with
  | cleared phase hnext hk => exact h.cleared hphase hnext hk
  | again st hst hkey => exact h.again hphase hst hkey
  | freed st hst hkey hrounds => exact h.freed hphase hst hkey hrounds

end Turned

/-- Before the round `j`: every round so far has passed every key, and no value waits in vain. -/
theorem Inv.round (h : s.Inv controls) {j : ℕ} (hpassed : ∀ k, s.phase.passed k = j)
    (hlast : s.phase.Last → j = destructorIterations) :
    (s.round j).Inv controls := by
  unfold TlsThread.round
  split_ifs with hround
  · -- a round that follows is not behind the last one, so nothing was freed so far
    have hnone : ∀ a j', .freed a j' ∉ s.log := fun a j' hj' =>
      absurd (hlast (h.last a j' hj').2) hround.2.ne
    exact {
      h with
      waits := fun _ _ hw => absurd hw (Nat.not_lt_zero _)
      spent := fun st hst => by
        have := h.spent st hst
        rw [hpassed] at this
        simpa [TlsPhase.passed] using this
      rounds := fun j' hj' => Option.some.inj hj' ▸ hround.2
      last := fun a j' hj' => absurd hj' (hnone a j') }
  · -- the thread is at its end, where nothing waits and every round counts as passed
    exact {
      h with
      waits := fun _ _ hw => hw.elim
      spent := fun _ _ => (Nat.sub_le _ _).trans (Nat.le_add_left _ _)
      rounds := fun j' hj' => by simp [TlsPhase.inRound] at hj'
      last := fun a j' hj' => ⟨(h.last a j' hj').1, trivial⟩ }

theorem Inv.exit (h : s.Inv controls) (hphase : s.phase = .living) : (s.round 0).Inv controls := by
  refine h.round (fun k => ?_) fun hl => ?_
  · rw [hphase]; rfl
  · rw [hphase] at hl
    exact hl.elim

theorem Inv.endRound (h : s.Inv controls) {j i : ℕ} (hphase : s.phase = .turn j i)
    (hi : pthreadKeysMax ≤ i) : (s.round (j + 1)).Inv controls := by
  refine h.round (fun k => ?_) fun hl => ?_
  · rw [hphase, TlsPhase.passed_end hi]
  · rw [hphase] at hl
    exact hl

/-- **One step keeps the invariant.** -/
theorem Inv.step [DecidableEq ι] (h : s.Inv controls) {l : TlsMove ι}
    (hs : step controls s l = some t) : t.Inv controls := by
  cases l with
  | create destructor =>
    obtain ⟨⟨k, u⟩, hu, rfl⟩ := Option.map_eq_some_iff.mp hs
    obtain ⟨hk, rfl⟩ := keyCreate_eq_some hu
    exact h.created hk _ _
  | delete k =>
    obtain ⟨hk, hs⟩ := Option.ite_none_right_eq_some.mp hs
    exact Option.some.inj hs ▸ h.keyDelete hk
  | indexed c =>
    obtain ⟨⟨k, u⟩, hu, rfl⟩ := Option.map_eq_some_iff.mp hs
    exact (h.indexOf hu).1
  | address c base =>
    obtain ⟨-, hs⟩ := Option.ite_none_right_eq_some.mp hs
    obtain ⟨⟨p, u⟩, hu, rfl⟩ := Option.map_eq_some_iff.mp hs
    exact (h.getAddress hu).1
  | set k v =>
    obtain ⟨⟨-, hk⟩, hs⟩ := Option.ite_none_right_eq_some.mp hs
    exact Option.some.inj hs ▸ h.set hk v
  | store a b =>
    obtain ⟨-, hs⟩ := Option.ite_none_right_eq_some.mp hs
    exact Option.some.inj hs ▸ { h with }
  | exit =>
    obtain ⟨hphase, rfl⟩ := step_exit.mp hs
    exact h.exit hphase
  | turn =>
    obtain ⟨j, i, hphase, ⟨hi, hs⟩ | ⟨hi, rfl⟩⟩ := step_turn.mp hs
    · obtain ⟨u, hu, hv⟩ := h.visited j ⟨i, hi⟩
      rw [hs] at hu
      exact Option.some.inj hu ▸ hv.inv h hphase
    · exact h.endRound hphase hi
  | leave =>
    -- the loop goes on behind the key, where it would have without the destructor
    obtain ⟨j, i, hphase, rfl⟩ := step_leave.mp hs
    exact {
      h with
      waits := fun st hst hw => h.waits st hst (hphase ▸ hw)
      spent := fun st hst => by
        have := h.spent st hst
        rwa [hphase] at this
      rounds := fun j' hj' => h.rounds j' (hphase ▸ hj')
      last := fun a j' hj' => ⟨(h.last a j' hj').1, by
        have := (h.last a j' hj').2
        rwa [hphase] at this⟩ }

end TlsThread

end OpenkalMusl
