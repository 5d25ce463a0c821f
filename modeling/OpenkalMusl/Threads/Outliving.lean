import OpenkalMusl.Threads.Destructors
import OpenkalMusl.Transition.Run

/-!
# Variables outlive the destructors that read them

Storage that a thread has when it begins to end keeps its place and its bytes until the fourth round
comes to its key, and is freed there. A destructor that reads the variable in the first three rounds
finds it; one that reads it later has new storage made.

What the keys behind hold in the fourth round is given to their destructors after the storage is
gone, so a destructor of the program's own that is kept alive by setting its key to the address of
a variable is given that address once too often.

## Main definitions

* `TlsThread.Outlasts`: storage that was there when the thread began to end
* `TlsThread.Gone`: an address that was freed and is not in use again
* `VariablesOutlive`: what holds of the variables of a thread, up to its end

## Main results

* `TlsThread.Outlasts.step`: one step keeps the storage, or is the fourth round at its key
* `TlsThread.Inv.ends`: every thread can come to its end
* `variables_outlive`: in every state of every run
* `destructor_given_freed`: a destructor of the program that is given what was freed
-/

namespace OpenkalMusl

open Transition

namespace TlsThread

variable {ι : Type*} {controls : ι → EmutlsControl} {s t : TlsThread ι}

/-! ## Storage that is there when the thread ends -/

/-- The byte at `a` after a move, where it was `b`: what the program stored there, if it did. -/
def stored (a : ℕ) (b : UInt8) : TlsMove ι → UInt8
  | .store a' b' => if a' = a then b' else b
  | _ => b

/-- The storage `st`, whose bytes should be `b`: it is in use, and its count and the rounds that
passed its key are three; or four rounds have passed it, it was freed once, and storage at its
address is too new to be freed. -/
inductive Outlasts (controls : ι → EmutlsControl) (st : TlsStorage ι) (b : ℕ → UInt8)
    (s : TlsThread ι) : Prop
  | kept (r : ℕ) (hlive : { st with rounds := r } ∈ s.live)
      (hsum : r + s.phase.passed st.key = destructorIterations - 1)
      (hmem : ∀ a, st.Has (controls st.control) a → s.mem a = b a)
      (hlog : ∀ j, .freed st.addr j ∉ s.log)
  | freed (hpassed : s.phase.passed st.key = destructorIterations)
      (hcount : s.log.count (.freed st.addr (destructorIterations - 1)) = 1)
      (hnew : ∀ st' ∈ s.live, st'.addr = st.addr →
        destructorIterations ≤ st'.rounds + s.phase.passed st'.key)

section Outlasts

variable {st : TlsStorage ι} {b : ℕ → UInt8}

/-- What leaves storage, stage and what was freed alone. -/
theorem Outlasts.congr (h : s.Outlasts controls st b) {b' : ℕ → UInt8} (hlive : t.live = s.live)
    (hpassed : ∀ k, t.phase.passed k = s.phase.passed k)
    (hlog : ∀ j, t.log.count (.freed st.addr j) = s.log.count (.freed st.addr j))
    (hmem : ∀ a, st.Has (controls st.control) a → s.mem a = b a → t.mem a = b' a) :
    t.Outlasts controls st b' := by
  cases h with
  | kept r hst hsum hold hfree =>
    refine .kept r (hlive ▸ hst) (hpassed _ ▸ hsum) (fun a ha => hmem a ha (hold a ha)) fun j => ?_
    rw [← List.count_eq_zero, hlog, List.count_eq_zero]
    exact hfree j
  | freed hfour hcount hnew =>
    refine .freed (hpassed _ ▸ hfour) (hlog _ ▸ hcount) fun st' hst' haddr => ?_
    rw [hpassed]
    exact hnew st' (hlive ▸ hst') haddr

theorem Outlasts.indexOf [DecidableEq ι] (h : s.Outlasts controls st b) {c : ι}
    {k : Fin pthreadKeysMax} (hs : s.indexOf c = some (k, t)) : t.Outlasts controls st b := by
  rcases indexOf_eq_some hs with ⟨-, rfl⟩ | ⟨-, -, rfl⟩
  · exact h
  · exact h.congr rfl (fun _ => rfl) (fun _ => rfl) fun _ _ e => e

theorem Outlasts.round (h : s.Outlasts controls st b) (hinv : s.Inv controls) {j : ℕ}
    (hpassed : ∀ k, s.phase.passed k = j) (hwaits : ∀ k, s.phase.Waits k) :
    (s.round j).Outlasts controls st b := by
  cases h with
  | kept r hst hsum hmem hlog =>
    rw [hpassed] at hsum
    -- its value was set in the round that ends, so another one follows
    have hused : s.used = true := hinv.waits _ hst (hwaits _)
    have hj : j < destructorIterations := by
      unfold destructorIterations at *
      omega
    rw [TlsThread.round, if_pos ⟨hused, hj⟩]
    exact .kept r hst (by simpa [TlsPhase.passed] using hsum) hmem hlog
  | freed hfour hcount hnew =>
    rw [hpassed] at hfour
    rw [TlsThread.round, if_neg fun hr => hr.2.ne hfour]
    exact .freed rfl hcount fun _ _ _ => Nat.le_add_left _ _

section Visited

variable {j : ℕ} {k : Fin pthreadKeysMax}

theorem Visited.passed (hv : Visited s j k t) (hphase : s.phase = .turn j k)
    (k' : Fin pthreadKeysMax) :
    t.phase.passed k' = s.phase.passed k' + if k' = k then 1 else 0 :=
  hphase ▸ TlsPhase.passed_next hv.inRound k'

theorem passed_turn (hphase : s.phase = .turn j k) : s.phase.passed k = j := by
  simp [hphase, TlsPhase.passed]

/-- The loop comes to a key while the storage is in use: its own in the first three rounds, its own
in the fourth, or another one. -/
theorem Visited.of_kept (hv : Visited s j k t) (hinv : s.Inv controls)
    (hphase : s.phase = .turn j k) {r : ℕ} (hlive : { st with rounds := r } ∈ s.live)
    (hsum : r + s.phase.passed st.key = destructorIterations - 1)
    (hmem : ∀ a, st.Has (controls st.control) a → s.mem a = b a)
    (hlog : ∀ j', .freed st.addr j' ∉ s.log) : t.Outlasts controls st b := by
  have hspent := hv.passed hphase
  cases hv with
  | cleared phase hnext hk =>
    refine .kept r hlive ?_ hmem hlog
    rw [hspent, if_neg (hk _ hlive)]
    exact hsum
  | again st₁ hst₁ hkey hrounds =>
    by_cases hk : st.key = k
    · obtain rfl := hinv.eq_of_key hst₁ hlive (hkey.trans hk.symm)
      refine .kept (r - 1) ((hinv.mem_countDown hst₁).mpr (.inr rfl)) ?_ hmem hlog
      have hr : r ≠ 0 := hrounds
      rw [hspent, if_pos hk]
      omega
    · have hne : st.key ≠ st₁.key := fun e => hk (e.trans hkey)
      refine .kept r ((hinv.mem_countDown hst₁).mpr (.inl ⟨hlive, hne⟩)) ?_ hmem hlog
      rw [hspent, if_neg hk]
      exact hsum
  | freed st₁ hst₁ hkey hrounds =>
    -- the storage itself, in the fourth round, or other storage
    by_cases hk : st.key = k
    · obtain rfl := hinv.eq_of_key hst₁ hlive (hkey.trans hk.symm)
      have hlast := hinv.last_round hphase hst₁ hkey hrounds
      refine .freed ?_ ?_ fun st' hst' haddr => ?_
      · rw [hspent, if_pos hk, hk, passed_turn hphase]
        exact hlast
      · have hj' : destructorIterations - 1 = j := by omega
        rw [hj', List.count_append, List.count_eq_zero.mpr (hlog j)]
        simp
      · obtain ⟨hst', hne⟩ := (hinv.mem_freed hst₁).mp hst'
        exact absurd (by rw [hinv.eq_of_addr hst' hst₁ haddr]) hne
    · have hne : st.key ≠ st₁.key := fun e => hk (e.trans hkey)
      refine .kept r ((hinv.mem_freed hst₁).mpr ⟨hlive, hne⟩) ?_ hmem fun j' hj' => ?_
      · rw [hspent, if_neg hk]
        exact hsum
      · rcases List.mem_append.mp hj' with hj' | hj'
        · exact hlog j' hj'
        · obtain ⟨haddr, -⟩ := TlsEvent.freed.inj (List.mem_singleton.mp hj')
          exact hne (by rw [← hinv.eq_of_addr hlive hst₁ haddr])

/-- The loop comes to a key after the storage was freed: what is at its address by now is not. -/
theorem Visited.of_freed (hv : Visited s j k t) (hinv : s.Inv controls)
    (hphase : s.phase = .turn j k) (hfour : s.phase.passed st.key = destructorIterations)
    (hcount : s.log.count (.freed st.addr (destructorIterations - 1)) = 1)
    (hnew : ∀ st' ∈ s.live, st'.addr = st.addr →
      destructorIterations ≤ st'.rounds + s.phase.passed st'.key) :
    t.Outlasts controls st b := by
  have hspent := hv.passed hphase
  have hj : j < destructorIterations := hinv.rounds j (by rw [hphase]; rfl)
  have hk : st.key ≠ k := fun e => by
    rw [e, passed_turn hphase] at hfour
    omega
  have hfour' : t.phase.passed st.key = destructorIterations := by
    rw [hspent, if_neg hk]
    exact hfour
  cases hv with
  | cleared phase hnext hk' =>
    refine .freed hfour' hcount fun st' hst' haddr => ?_
    rw [hspent, if_neg (hk' st' hst')]
    exact hnew st' hst' haddr
  | again st₁ hst₁ hkey hrounds =>
    refine .freed hfour' hcount fun st' hst' haddr => ?_
    rw [hspent]
    rcases (hinv.mem_countDown hst₁).mp hst' with ⟨hst', -⟩ | rfl
    · exact (hnew st' hst' haddr).trans (Nat.add_le_add_left (Nat.le_add_right _ _) _)
    · have hsum := hnew st₁ hst₁ haddr
      simp only [if_pos hkey]
      omega
  | freed st₁ hst₁ hkey hrounds =>
    -- new storage at the same address has rounds left, so it is not what is freed
    have haddr : st₁.addr ≠ st.addr := fun e => by
      have hsum := hnew st₁ hst₁ e
      rw [hrounds, hkey, passed_turn hphase] at hsum
      omega
    refine .freed hfour' ?_ fun st' hst' haddr' => ?_
    · rw [List.count_append, hcount, List.count_eq_zero.mpr]
      simp [haddr.symm]
    · obtain ⟨hst', hne⟩ := (hinv.mem_freed hst₁).mp hst'
      rw [hspent, if_neg (hkey ▸ hne)]
      exact hnew st' hst' haddr'

theorem Outlasts.visited (h : s.Outlasts controls st b) (hinv : s.Inv controls)
    (hphase : s.phase = .turn j k) (hv : Visited s j k t) : t.Outlasts controls st b := by
  cases h with
  | kept r hlive hsum hmem hlog => exact hv.of_kept hinv hphase hlive hsum hmem hlog
  | freed hfour hcount hnew => exact hv.of_freed hinv hphase hfour hcount hnew

end Visited

/-- Storage for another variable is apart, and new storage has all its rounds before it. -/
theorem Outlasts.make (h : s.Outlasts controls st b) (hinv : s.Inv controls) (hruns : s.Runs)
    {c : ι} {k : Fin pthreadKeysMax} {base : ℕ}
    (ha : s.Allocates (controls c).alignment (controls c).length base) :
    (s.make controls (storageAt controls c k base)).Outlasts controls st b := by
  have hlaid := laid_storageAt controls k ha
  cases h with
  | kept r hlive hsum hmem hlog =>
    refine .kept r ?_ ?_ (fun a hst => ?_) ?_
    · simp [TlsThread.make, hlive]
    · simpa [TlsThread.make] using hsum
    · -- the new variable lies in its own block, and the old one in another
      have hnot : ¬ (storageAt controls c k base).Has (controls c) a := fun hnew => by
        have hapart := ha.2.2.2.2.2 _ hlive
        have hold := hinv.laid _ hlive
        have := hold.header
        have := hold.inside
        have := hlaid.header
        have := hlaid.inside
        have := hst.1
        have := hst.2
        have := hnew.1
        have := hnew.2
        simp only [Range.Apart, TlsStorage.block, storageAt] at *
        unfold tlsHeaderSize at *
        omega
      rw [TlsThread.make, setspecific_mem]
      exact (if_neg hnot).trans (hmem a hst)
    · simpa [TlsThread.make] using hlog
  | freed hfour hcount hnew =>
    refine .freed ?_ ?_ fun st' hst' haddr => ?_
    · simpa [TlsThread.make] using hfour
    · simpa [TlsThread.make] using hcount
    · simp only [TlsThread.make, setspecific_live, setspecific_phase] at hst' ⊢
      rcases List.mem_cons.mp hst' with rfl | hst'
      · -- the fourth round is under way, and so three have passed every key
        have hthree : destructorIterations - 1 ≤ s.phase.passed k := by
          unfold Runs at hruns
          cases hphase : s.phase with
          | living | ended | turn j i => simp_all [TlsPhase.passed, destructorIterations]
          | within j i =>
            rw [hphase] at hfour
            simp only [TlsPhase.passed] at hfour ⊢
            split_ifs at hfour <;> omega
        simp only [storageAt]
        unfold destructorIterations at *
        omega
      · exact hnew st' hst' haddr

/-- **One step keeps the storage**, or is the fourth round at its key. -/
theorem Outlasts.step [DecidableEq ι] (h : s.Outlasts controls st b) (hinv : s.Inv controls)
    {l : TlsMove ι} (hs : TlsThread.step controls s l = some t) :
    t.Outlasts controls st fun a => stored a (b a) l := by
  have hkeep : ∀ a, st.Has (controls st.control) a → s.mem a = b a → s.mem a = b a :=
    fun _ _ => id
  cases l with
  | create destructor =>
    obtain ⟨⟨k, u⟩, hu, rfl⟩ := Option.map_eq_some_iff.mp hs
    obtain ⟨-, rfl⟩ := keyCreate_eq_some hu
    exact h.congr rfl (fun _ => rfl) (fun _ => rfl) hkeep
  | delete k =>
    obtain ⟨-, hs⟩ := Option.ite_none_right_eq_some.mp hs
    obtain rfl := Option.some.inj hs
    exact h.congr rfl (fun _ => rfl) (fun _ => rfl) hkeep
  | indexed c =>
    obtain ⟨⟨k, u⟩, hu, rfl⟩ := Option.map_eq_some_iff.mp hs
    exact h.indexOf hu
  | address c base =>
    obtain ⟨hruns, hs⟩ := Option.ite_none_right_eq_some.mp hs
    obtain ⟨⟨p, u⟩, hu, rfl⟩ := Option.map_eq_some_iff.mp hs
    obtain ⟨k, u, hk, ⟨-, rfl, rfl⟩ | ⟨-, ha, rfl, rfl⟩⟩ := getAddress_eq_some controls hu
    · exact h.indexOf hk
    · -- only code of the program asks, and making the key does not change that
      have hruns' : u.Runs := by
        unfold Runs at hruns ⊢
        rwa [indexOf_phase hk]
      exact (h.indexOf hk).make (hinv.indexOf hk).1 hruns' ha
  | set k v =>
    obtain ⟨-, hs⟩ := Option.ite_none_right_eq_some.mp hs
    obtain rfl := Option.some.inj hs
    refine h.congr (by simp) (fun _ => by simp) (fun j => ?_) fun _ _ e => by simpa [stored] using e
    simp [List.count_append]
  | store a b' =>
    obtain ⟨-, hs⟩ := Option.ite_none_right_eq_some.mp hs
    obtain rfl := Option.some.inj hs
    refine h.congr rfl (fun _ => rfl) (fun _ => rfl) fun a' _ e => ?_
    simp [stored, Function.update_apply, e, eq_comm]
  | exit =>
    obtain ⟨hphase, rfl⟩ := step_exit.mp hs
    exact h.round hinv (fun _ => by rw [hphase]; rfl) fun _ => by rw [hphase]; trivial
  | turn =>
    obtain ⟨j, i, hphase, ⟨hi, hs⟩ | ⟨hi, rfl⟩⟩ := step_turn.mp hs
    · obtain ⟨u, hu, hv⟩ := hinv.visited j ⟨i, hi⟩
      rw [hs] at hu
      obtain rfl := Option.some.inj hu
      exact h.visited hinv hphase hv
    · refine h.round hinv (fun k => ?_) fun k => ?_
      · rw [hphase, TlsPhase.passed_end hi]
      · rw [hphase]
        exact TlsPhase.waits_end hi k
  | leave =>
    obtain ⟨j, i, hphase, rfl⟩ := step_leave.mp hs
    exact h.congr rfl (fun k => by rw [hphase]; rfl) (fun _ => rfl) hkeep

theorem Outlasts.run [DecidableEq ι] {ls : List (TlsMove ι)} (h : s.Outlasts controls st b)
    (hinv : s.Inv controls) (hrun : Transition.run (TlsThread.step controls) s ls = some t) :
    t.Inv controls ∧ t.Outlasts controls st fun a => ls.foldl (stored a) (b a) := by
  induction ls generalizing s b with
  | nil =>
    cases hrun
    exact ⟨hinv, h⟩
  | cons l ls ih =>
    obtain ⟨u, hu, hrun⟩ := run_cons.mp hrun
    exact ih (h.step hinv hu) (hinv.step hu) hrun

/-- Storage of a thread that lives has all its rounds before it. -/
theorem Inv.outlasts (h : s.Inv controls) (hphase : s.phase = .living) (hst : st ∈ s.live) :
    s.Outlasts controls st s.mem := by
  refine .kept st.rounds hst ?_ (fun _ _ => rfl) fun j hj => ?_
  · have hspent := h.spent st hst
    have hmost := h.atMost st hst
    rw [hphase] at hspent ⊢
    exact le_antisymm hmost hspent
  · have := (h.last st.addr j hj).2
    rwa [hphase] at this

/-- Before the fourth round comes to its key, the variable is answered where it was, with what was
stored in it. -/
theorem Outlasts.early [DecidableEq ι] (h : s.Outlasts controls st b) (hinv : s.Inv controls)
    {j : ℕ} (hj : s.phase.inRound = some j) (hlt : j + 1 < destructorIterations) :
    (∀ base, s.getAddress controls st.control base = some (st.addr, s)) ∧
      ∀ a, st.Has (controls st.control) a → s.mem a = b a := by
  cases h with
  | kept r hlive hsum hmem hlog =>
    have hindex := hinv.owner _ hlive
    have hvalue := hinv.value _ hlive
    have hpos := hinv.addr_pos hlive
    dsimp only at hindex hvalue hpos
    refine ⟨fun base => ?_, hmem⟩
    simp [TlsThread.getAddress, TlsThread.indexOf, hindex, hvalue, hpos]
  | freed hfour =>
    -- four rounds have not passed the key yet
    have hle : s.phase.passed st.key ≤ j + 1 := by
      cases hphase : s.phase with
      | living | ended => simp [hphase, TlsPhase.inRound] at hj
      | turn j' i | within j' i =>
        rw [hphase] at hj
        obtain rfl : j' = j := Option.some.inj hj
        simp only [TlsPhase.passed]
        split_ifs <;> omega
    omega

theorem Outlasts.once (h : s.Outlasts controls st b) (hphase : s.phase = .ended) :
    s.log.count (.freed st.addr (destructorIterations - 1)) = 1 := by
  cases h with
  | kept r hlive hsum =>
    rw [hphase] at hsum
    simp only [TlsPhase.passed] at hsum
    unfold destructorIterations at hsum
    omega
  | freed hfour hcount => exact hcount

end Outlasts

/-! ## The end -/

/-- How far the end is. -/
def left : TlsPhase → ℕ
  | .living => 2 * (destructorIterations + 1) * (pthreadKeysMax + 1)
  | .turn j i => 2 * ((destructorIterations - j) * (pthreadKeysMax + 1) + (pthreadKeysMax - i))
  | .within j i =>
    2 * ((destructorIterations - j) * (pthreadKeysMax + 1) + (pthreadKeysMax - i)) + 1
  | .ended => 0

theorem left_round {j m : ℕ} (hj : j ≤ destructorIterations)
    (hm : 2 * (destructorIterations + 1 - j) * (pthreadKeysMax + 1) ≤ m) :
    left (s.round j).phase < m := by
  unfold TlsThread.round
  unfold destructorIterations pthreadKeysMax at *
  split_ifs <;> simp only [left, destructorIterations, pthreadKeysMax] <;> omega

/-- A thread that is not at its end can come nearer: the loop turns, and destructors return. -/
theorem Inv.progress [DecidableEq ι] (h : s.Inv controls) (hphase : s.phase ≠ .ended) :
    ∃ l t, TlsThread.step controls s l = some t ∧ left t.phase < left s.phase := by
  cases hp : s.phase with
  | living =>
    refine ⟨.exit, _, step_exit.mpr ⟨hp, rfl⟩, left_round (Nat.zero_le _) ?_⟩
    exact le_rfl
  | turn j i =>
    have hj := h.rounds j (by rw [hp]; rfl)
    by_cases hi : i < pthreadKeysMax
    · obtain ⟨t, ht, hv⟩ := h.visited j ⟨i, hi⟩
      refine ⟨.turn, t, step_turn.mpr ⟨j, i, hp, .inl ⟨hi, ht⟩⟩, ?_⟩
      rcases hv.inRound with h | h <;> rw [h] <;> simp only [left] <;> omega
    · -- the next round has all its keys to come, and there is one round fewer
      refine ⟨.turn, _, step_turn.mpr ⟨j, i, hp, .inr ⟨not_lt.mp hi, rfl⟩⟩, ?_⟩
      refine left_round hj ?_
      simp only [left]
      rw [Nat.add_sub_add_right, Nat.mul_assoc]
      omega
  | within j i =>
    refine ⟨.leave, _, step_leave.mpr ⟨j, i, hp, rfl⟩, ?_⟩
    simp only [left]
    omega
  | ended => exact absurd hp hphase

theorem Inv.ends [DecidableEq ι] (h : s.Inv controls) :
    ∃ ls t, Transition.run (TlsThread.step controls) s ls = some t ∧ t.phase = .ended := by
  -- by induction on how far the end is
  induction hn : left s.phase using Nat.strong_induction_on generalizing s with
  | _ n ih =>
    by_cases hphase : s.phase = .ended
    · exact ⟨[], s, rfl, hphase⟩
    · obtain ⟨l, u, hu, hlt⟩ := h.progress hphase
      obtain ⟨ls, t, hrun, ht⟩ := ih _ (hn ▸ hlt) (h.step hu) rfl
      exact ⟨l :: ls, t, run_cons.mpr ⟨u, hu, hrun⟩, ht⟩

/-- An address that was freed, and is not in use again. -/
def Gone (s : TlsThread ι) (a : ℕ) : Prop :=
  (∃ j, .freed a j ∈ s.log) ∧ ∀ st ∈ s.live, st.addr ≠ a

/-- A destructor is about to be called with an address that was freed. -/
def GivenFreed (s : TlsThread ι) : Prop :=
  ∃ j, ∃ k : Fin pthreadKeysMax, s.phase = .turn j k ∧
    (s.keys k = some .tlsRelease ∨ s.keys k = some .program) ∧ s.tsd k ≠ 0 ∧ s.Gone (s.tsd k)

end TlsThread

open TlsThread

section Outlive

variable {ι : Type*} [DecidableEq ι] {controls : ι → EmutlsControl} {s : TlsThread ι}

/-- What becomes of the storage `st` that a thread has in `s`, where it goes on to `t` by `ls` from
there and begins to end: up to the third round the variable is answered where it was and holds what
was stored in it, and it is freed in the fourth, once. -/
structure Outlived (controls : ι → EmutlsControl) (s : TlsThread ι) (st : TlsStorage ι)
    (ls : List (TlsMove ι)) (t : TlsThread ι) : Prop where
  early : ∀ j, t.phase.inRound = some j → j + 1 < destructorIterations →
    (∀ base, t.getAddress controls st.control base = some (st.addr, t)) ∧
      ∀ a, st.Has (controls st.control) a → t.mem a = ls.foldl (stored a) (s.mem a)
  late : ∀ j, .freed st.addr j ∈ t.log → j + 1 = destructorIterations
  once : t.phase = .ended → t.log.count (.freed st.addr (destructorIterations - 1)) = 1

/-- What holds of the variables of a thread: they are aligned and their headers lie in their blocks;
`__emutls_get_address` answers with storage in use, and `tls_release` is given such; a destructor of
the program's own is given what was freed in the last round at most, where the program set its key
to that; what the thread has when it begins to end outlives the destructors of the rounds but the
last; and the thread can end. -/
structure VariablesOutlive (controls : ι → EmutlsControl) (s : TlsThread ι) : Prop where
  laid : ∀ st ∈ s.live, st.Laid (controls st.control)
  answered : ∀ c base p t, s.getAddress controls c base = some (p, t) →
    ∃ st ∈ t.live, st.control = c ∧ st.addr = p ∧ st.Laid (controls c)
  released : ∀ j, ∀ k : Fin pthreadKeysMax, s.phase = .turn j k → s.keys k = some .tlsRelease →
    s.tsd k ≠ 0 → ∃ st ∈ s.live, st.key = k ∧ st.addr = s.tsd k
  given : ∀ j, ∀ k : Fin pthreadKeysMax, s.phase = .turn j k → s.keys k = some .program →
    s.tsd k ≠ 0 → s.Gone (s.tsd k) → j + 1 = destructorIterations ∧ .set k (s.tsd k) ∈ s.log
  outlived : s.phase = .living → ∀ st ∈ s.live, ∀ ls t,
    run (step controls) s (.exit :: ls) = some t → Outlived controls s st ls t
  ends : ∃ ls t, run (step controls) s ls = some t ∧ t.phase = .ended

theorem TlsThread.Inv.outlived (h : s.Inv controls) (hphase : s.phase = .living)
    {st : TlsStorage ι} (hst : st ∈ s.live) {ls : List (TlsMove ι)} {t : TlsThread ι}
    (hrun : run (TlsThread.step controls) s (.exit :: ls) = some t) :
    Outlived controls s st ls t := by
  obtain ⟨hinv, hout⟩ := (h.outlasts hphase hst).run h hrun
  exact {
    early := fun j hj hlt => hout.early hinv hj hlt
    late := fun j hj => (hinv.last st.addr j hj).1
    once := hout.once }

/-- **Variables outlive the destructors that read them**, in every state of every run of a thread:
whatever the keys and in whichever order they were created, and whatever the destructors read and
set. -/
theorem variables_outlive (controls : ι → EmutlsControl)
    (h : Reachable (step controls) (fresh ι) s) : VariablesOutlive controls s := by
  have hinv : s.Inv controls := h.invariant inv_fresh fun _ _ _ hu hv => hu.step hv
  exact {
    laid := hinv.laid
    answered := fun c base p t hp => by
      obtain ⟨ht, st, hst, rfl, rfl⟩ := hinv.getAddress hp
      exact ⟨st, hst, rfl, rfl, ht.laid st hst⟩
    released := fun j k _ hk hv => by
      obtain ⟨st, hst, rfl⟩ := hinv.held k hk hv
      exact ⟨st, hst, rfl, (hinv.value st hst).symm⟩
    given := fun j k hphase hk hv hgone => by
      obtain ⟨⟨j', hfreed⟩, -⟩ := hgone
      -- what was freed was freed in the last round, which is this one
      have hlast := (hinv.last _ _ hfreed).2
      rw [hphase] at hlast
      exact ⟨hlast, hinv.own k (.inr hk) hv⟩
    outlived := fun hphase st hst ls t hrun => hinv.outlived hphase hst hrun
    ends := hinv.ends }

end Outlive

/-! ## A destructor that is given what was freed -/

/-- A program of one variable, of eight bytes. -/
def oneVariable : Unit → EmutlsControl := fun _ => ⟨8, 8, none, by decide, ⟨3, rfl⟩⟩

theorem variables_outlive_one :
    ∃ s : TlsThread Unit, Reachable (step oneVariable) (fresh Unit) s ∧ s.live ≠ [] ∧
      VariablesOutlive oneVariable s := by
  have hrun : (run (step oneVariable) (fresh Unit) [.address () 65536]).map
      (fun s => s.live.isEmpty) = some false := by decide
  obtain ⟨s, hs, hlive⟩ := Option.map_eq_some_iff.mp hrun
  refine ⟨s, ⟨_, hs⟩, ?_, variables_outlive oneVariable ⟨_, hs⟩⟩
  rintro hnil
  simp [hnil] at hlive

/-- The key of the program's own, created after the variable's. -/
def laterKey : Fin pthreadKeysMax := ⟨1, by decide⟩

/-- A round in which the program's destructor sets its key to the variable's address again. -/
def roundSettingAgain : List (TlsMove Unit) :=
  [.turn, .turn, .set laterKey 65552, .leave] ++ List.replicate 127 .turn

/-- The program keeps the variable's address in a key of its own, and its destructor sets it
again: the last round frees the variable first. -/
theorem destructor_given_freed :
    ¬ ∀ s, Reachable (step oneVariable) (fresh Unit) s → ¬ s.GivenFreed := by
  intro hall
  have hrun : (run (step oneVariable) (fresh Unit)
      ([.address () 65536, .create true, .set laterKey 65552, .exit] ++ roundSettingAgain ++
        roundSettingAgain ++ roundSettingAgain ++ [.turn])).map
      (fun s => ((s.phase, s.keys laterKey), (s.tsd laterKey, s.live),
        s.log.contains (.freed 65552 3))) =
      some ((.turn 3 1, some .program), (65552, []), true) := by
    decide +kernel
  obtain ⟨s, hs, hview⟩ := Option.map_eq_some_iff.mp hrun
  obtain ⟨⟨hphase, hkey⟩, ⟨hvalue, hlive⟩, hfreed⟩ := by simpa using hview
  refine hall s ⟨_, hs⟩ ⟨3, laterKey, hphase, .inr hkey, ?_, ⟨3, ?_⟩, ?_⟩
  · rw [hvalue]
    decide
  · rw [hvalue]
    exact hfreed
  · rw [hlive]
    exact fun _ hst => absurd hst List.not_mem_nil

end OpenkalMusl
