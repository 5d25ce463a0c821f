import OpenkalMusl.Transition.Parking

/-!
# Once

`pthread_once` of musl on one control word, as any number of contexts interleave their atomic steps.
The word is 0 before the routine is run, 1 while a context runs it, 3 where others may sleep until
it has, and 2 afterwards. A context that is cancelled within the routine, or leaves it by
`pthread_exit`, puts the word back to 0, and another runs the routine.

## Main definitions

* `OncePc`, `OncePc.act`: where a context is, and what it does next
* `once`: the protocol

## Main results

* `onceMove_act`: what one atomic step of one context can do
* `once_runs_once`: the routine is completed at most once, nobody returns before it is, and nobody
  sleeps on for it
-/

namespace OpenkalMusl

open Transition

/-- The control word, and how often the routine was completed, which no step reads. -/
structure OnceWord where
  control : ℕ
  completed : ℕ

/-- Where a context is. -/
inductive OncePc where
  | idle
  | load
  | cas
  /-- The routine, and what follows it where it returns or is left. -/
  | init
  | swap
  | undo
  /-- The wait: the mark, the spin with so many rounds left, and the loop. -/
  | mark
  | spin (left : ℕ)
  | test
  | wait
  | asleep
  /-- A wake of all, by a context that then returns or was cancelled. -/
  | wake (done : Bool)
  /-- The call has returned 0. -/
  | returned
  deriving DecidableEq

inductive OnceAct where
  | call
  | step
  | cancel
  /-- A wait returns without a wake. -/
  | spurious
  deriving DecidableEq

namespace OncePc

/-- Where a context goes when it has returned, or was cancelled. -/
def ended : Bool → OncePc
  | true => .returned
  | false => .idle

/-- The next atomic step of a context that neither sleeps nor wakes. -/
def next (o : OnceWord) : OncePc → Option (OnceWord × OncePc)
  | .load => some (o, if o.control = 2 then .returned else .cas)
  | .cas =>
    some (match o.control with
      | 0 => ({ o with control := 1 }, .init)
      | 1 => (o, .mark)
      | 3 => (o, .spin 100)
      | 2 => (o, .returned)
      -- no other value occurs
      | _ => (o, .cas))
  | .mark => some ({ o with control := if o.control = 1 then 3 else o.control }, .spin 100)
  | .spin 0 => some (o, .test)
  | .spin (n + 1) => some (o, if o.control = 3 then .spin n else .cas)
  | .test => some (o, if o.control = 3 then .wait else .cas)
  | .wait => some (o, if o.control = 3 then .asleep else .test)
  | .init => some ({ o with completed := o.completed + 1 }, .swap)
  | .swap => some ({ o with control := 2 }, if o.control = 3 then .wake true else ended true)
  | .undo => some ({ o with control := 0 }, if o.control = 3 then .wake false else ended false)
  | .idle | .asleep | .wake _ | .returned => none

/-- An atomic step, a call, a cancellation, or the end of a wait. -/
def act (o : OnceWord) (pc : OncePc) : OnceAct → Option (OnceWord × OncePc)
  | .call => if pc = .idle ∨ pc = .returned then some (o, .load) else none
  | .step => pc.next o
  | .cancel => if pc = .init then some (o, .undo) else none
  | .spurious => if pc = .asleep then some (o, .test) else none

def released : OncePc → OncePc
  | .asleep => .test
  | pc => pc

end OncePc

/-- The protocol of a control word. -/
def once (C : Type*) : Parking C OnceWord OncePc OnceAct Unit where
  act := fun _ => OncePc.act
  sleepsOn := fun _ pc => if pc = .asleep then some () else none
  released := OncePc.released
  wakes := fun pc => match pc with
    | .wake done => some (⟨(), true⟩, .ended done)
    | _ => none

/-- Contexts on one control word. -/
abbrev OnceState (C : Type*) := Parked C OnceWord OncePc

/-- `PTHREAD_ONCE_INIT`. -/
def OnceState.start {C : Type*} : OnceState C := ⟨⟨0, 0⟩, fun _ => .idle⟩

/-! ## What one step can do -/

namespace OncePc

/-- Within the routine, or about to set the word after it. -/
def inside : OncePc → ℕ
  | .init | .swap | .undo => 1
  | _ => 0

/-- The routine has been completed, and the word does not say so yet. -/
def finishing : OncePc → ℕ
  | .swap => 1
  | _ => 0

def sleeping : OncePc → ℕ
  | .asleep => 1
  | _ => 0

def waking : OncePc → ℕ
  | .wake _ => 1
  | _ => 0

/-- Returned, or with nothing left to do before it. -/
def Returns : OncePc → Prop
  | .returned | .wake true => True
  | _ => False

end OncePc

open OncePc

/-- What the word is while so many contexts run the routine and so many have completed it. -/
structure OnceAccount (o : OnceWord) (inside finishing : ℕ) : Prop where
  control : inside = 0 ∧ (o.control = 0 ∨ o.control = 2) ∨
    inside = 1 ∧ (o.control = 1 ∨ o.control = 3)
  finishing_le : finishing ≤ inside
  completed : o.completed = finishing + if o.control = 2 then 1 else 0

/-- What an atomic step of a context at `pc` does: it leaves the context at `pc'`. -/
structure OnceMove (o : OnceWord) (pc : OncePc) (o' : OnceWord) (pc' : OncePc) : Prop where
  account : ∀ inside finishing, OnceAccount o inside finishing → pc.inside ≤ inside →
    pc.finishing ≤ finishing → finishing + pc.inside ≤ inside + pc.finishing →
      OnceAccount o' (inside + pc'.inside - pc.inside)
        (finishing + pc'.finishing - pc.finishing)
  /-- What is set is not undone. -/
  stays : o.control = 2 → pc.inside = 0 → o'.control = 2
  returns : pc'.Returns → o'.control = 2
  awake : pc.waking = 0
  asleep : pc'.sleeping ≠ 0 → o'.control = 3
  /-- Those who wait are woken where the word no longer says so. -/
  wakes : o.control = 3 → o'.control = 3 ∨ pc'.waking ≠ 0

section OnceMove

variable {o : OnceWord} {pc pc' : OncePc}

/-- A context that only moves. -/
theorem onceMove_goto (hinside : pc'.inside = pc.inside)
    (hfinishing : pc'.finishing = pc.finishing) (hreturns : pc'.Returns → o.control = 2)
    (hawake : pc.waking = 0) (hasleep : pc'.sleeping ≠ 0 → o.control = 3) :
    OnceMove o pc o pc' where
  account inside finishing h _ _ _ := by
    rwa [hinside, hfinishing, Nat.add_sub_cancel, Nat.add_sub_cancel]
  stays h _ := h
  returns := hreturns
  awake := hawake
  asleep := hasleep
  wakes := .inl

theorem onceMove_next {w : OnceWord × OncePc} (h : pc.next o = some w) :
    OnceMove o pc w.1 w.2 := by
  cases pc with
  | idle => cases h
  | asleep => cases h
  | wake done => cases h
  | returned => cases h
  | load =>
    obtain rfl := Option.some.inj h
    split_ifs with hset
    · exact onceMove_goto rfl rfl (fun _ => hset) rfl (fun h => absurd rfl h)
    · exact onceMove_goto rfl rfl False.elim rfl (fun h => absurd rfl h)
  | cas =>
    obtain rfl := Option.some.inj h
    split
    · next hzero =>
      refine ⟨fun inside finishing h _ _ _ => ?_, fun h => ?_, False.elim, rfl,
        fun h => absurd rfl h, fun h => ?_⟩
      · have hcontrol := h.control
        have hle := h.finishing_le
        have hcompleted := h.completed
        rw [hzero] at hcontrol hcompleted
        refine ⟨.inr ⟨?_, .inl rfl⟩, ?_, ?_⟩
        · show inside + 1 - 0 = 1
          omega
        · show finishing + 0 - 0 ≤ inside + 1 - 0
          omega
        · exact hcompleted
      · omega
      · omega
    · exact onceMove_goto rfl rfl False.elim rfl (fun h => absurd rfl h)
    · exact onceMove_goto rfl rfl False.elim rfl (fun h => absurd rfl h)
    · next hset => exact onceMove_goto rfl rfl (fun _ => hset) rfl (fun h => absurd rfl h)
    · exact onceMove_goto rfl rfl False.elim rfl (fun h => absurd rfl h)
  | mark =>
    obtain rfl := Option.some.inj h
    by_cases hone : o.control = 1
    · rw [if_pos hone]
      refine ⟨fun inside finishing h _ _ _ => ?_, fun h => ?_, False.elim, rfl,
        fun h => absurd rfl h, fun _ => .inl rfl⟩
      · have hcontrol := h.control
        have hcompleted := h.completed
        rw [hone] at hcontrol hcompleted
        exact ⟨.inr ⟨by show inside + 0 - 0 = 1; omega, .inr rfl⟩, h.finishing_le, hcompleted⟩
      · omega
    · rw [if_neg hone]
      exact onceMove_goto rfl rfl False.elim rfl (fun h => absurd rfl h)
  | spin left =>
    cases left with
    | zero =>
      obtain rfl := Option.some.inj h
      exact onceMove_goto rfl rfl False.elim rfl (fun h => absurd rfl h)
    | succ n =>
      obtain rfl := Option.some.inj h
      split_ifs <;> exact onceMove_goto rfl rfl False.elim rfl (fun h => absurd rfl h)
  | test =>
    obtain rfl := Option.some.inj h
    split_ifs <;> exact onceMove_goto rfl rfl False.elim rfl (fun h => absurd rfl h)
  | wait =>
    obtain rfl := Option.some.inj h
    split_ifs with hmarked
    · exact onceMove_goto rfl rfl False.elim rfl (fun _ => hmarked)
    · exact onceMove_goto rfl rfl False.elim rfl (fun h => absurd rfl h)
  | init =>
    obtain rfl := Option.some.inj h
    refine ⟨fun inside finishing h hle _ hrest => ?_, fun h _ => h, False.elim, rfl,
      fun h => absurd rfl h, .inl⟩
    have hcontrol := h.control
    have hcompleted := h.completed
    have hone : 1 ≤ inside := hle
    have hothers : finishing + 1 ≤ inside + 0 := hrest
    have hnot : o.control ≠ 2 := by omega
    rw [if_neg hnot] at hcompleted
    have hpc : inside + OncePc.inside .swap - 1 = inside := rfl
    refine ⟨?_, ?_, ?_⟩
    · rw [show inside + OncePc.inside .swap - OncePc.inside .init = inside from hpc]
      exact hcontrol
    · rw [show inside + OncePc.inside .swap - OncePc.inside .init = inside from hpc]
      exact hothers
    · show o.completed + 1 = finishing + 1 - 0 + if o.control = 2 then 1 else 0
      rw [if_neg hnot]
      omega
  | swap =>
    obtain rfl := Option.some.inj h
    refine ⟨fun inside finishing h hle hle' hrest => ?_, fun _ _ => rfl, fun _ => rfl, rfl, ?_,
      fun h => .inr ?_⟩
    · have hcontrol := h.control
      have hcompleted := h.completed
      have hbelow := h.finishing_le
      have hone : 1 ≤ inside := hle
      have hone' : 1 ≤ finishing := hle'
      have hnot : o.control ≠ 2 := by omega
      rw [if_neg hnot] at hcompleted
      have hpc : inside + OncePc.inside (if o.control = 3 then .wake true else ended true) -
          1 = 0 ∧ finishing + OncePc.finishing (if o.control = 3 then .wake true else ended true) -
          1 = 0 := by
        split_ifs <;>
          exact ⟨by show inside + 0 - 1 = 0; omega, by show finishing + 0 - 1 = 0; omega⟩
      refine ⟨.inl ⟨hpc.1, .inr rfl⟩, ?_, ?_⟩
      · exact hpc.2.le.trans (Nat.zero_le _)
      · show o.completed = finishing + OncePc.finishing (if o.control = 3 then _ else _) - 1 + 1
        rw [hpc.2]
        omega
    · show OncePc.sleeping (if o.control = 3 then .wake true else ended true) ≠ 0 → _
      split_ifs <;> exact fun h => absurd rfl h
    · show OncePc.waking (if o.control = 3 then .wake true else ended true) ≠ 0
      rw [if_pos h]
      exact Nat.one_ne_zero
  | undo =>
    obtain rfl := Option.some.inj h
    refine ⟨fun inside finishing h hle _ hrest => ?_, fun _ h => absurd h Nat.one_ne_zero, ?_, rfl,
      ?_, fun h => .inr ?_⟩
    · have hcontrol := h.control
      have hcompleted := h.completed
      have hone : 1 ≤ inside := hle
      have hothers : finishing + 1 ≤ inside + 0 := hrest
      have hnot : o.control ≠ 2 := by omega
      rw [if_neg hnot] at hcompleted
      have hpc : inside + OncePc.inside (if o.control = 3 then .wake false else ended false) -
          1 = 0 ∧
          finishing + OncePc.finishing (if o.control = 3 then .wake false else ended false) -
          0 = 0 := by
        split_ifs <;>
          exact ⟨by show inside + 0 - 1 = 0; omega, by show finishing + 0 - 0 = 0; omega⟩
      refine ⟨.inl ⟨hpc.1, .inl rfl⟩, ?_, ?_⟩
      · exact hpc.2.le.trans (Nat.zero_le _)
      · show o.completed = finishing + OncePc.finishing (if o.control = 3 then _ else _) - 0 + 0
        rw [hpc.2]
        omega
    · show Returns (if o.control = 3 then .wake false else ended false) → _
      split_ifs <;> exact False.elim
    · show OncePc.sleeping (if o.control = 3 then .wake false else ended false) ≠ 0 → _
      split_ifs <;> exact fun h => absurd rfl h
    · show OncePc.waking (if o.control = 3 then .wake false else ended false) ≠ 0
      rw [if_pos h]
      exact Nat.one_ne_zero

/-- **One atomic step**, call, cancellation or end of a wait. -/
theorem onceMove_act {a : OnceAct} {w : OnceWord × OncePc} (h : pc.act o a = some w) :
    OnceMove o pc w.1 w.2 := by
  cases a with
  | call =>
    simp only [OncePc.act, Option.ite_none_right_eq_some, Option.some.injEq] at h
    obtain ⟨rfl | rfl, rfl⟩ := h <;>
      exact onceMove_goto rfl rfl False.elim rfl (fun h => absurd rfl h)
  | step => exact onceMove_next h
  | cancel =>
    simp only [OncePc.act, Option.ite_none_right_eq_some, Option.some.injEq] at h
    obtain ⟨rfl, rfl⟩ := h
    exact onceMove_goto rfl rfl False.elim rfl (fun h => absurd rfl h)
  | spurious =>
    simp only [OncePc.act, Option.ite_none_right_eq_some, Option.some.injEq] at h
    obtain ⟨rfl, rfl⟩ := h
    exact onceMove_goto rfl rfl False.elim rfl (fun h => absurd rfl h)

end OnceMove

/-! ## The account of a control word -/

theorem once_sleepsOn {C : Type*} {x : C} {pc : OncePc} :
    (once C).sleepsOn x pc = some () ↔ pc.sleeping ≠ 0 := by
  cases pc <;> simp [once, sleeping]

theorem once_wakes {C : Type*} {pc p : OncePc} {all : Bool}
    (h : (once C).wakes pc = some (⟨(), all⟩, p)) :
    all = true ∧ ∃ done, pc = .wake done ∧ p = ended done := by
  cases pc <;> simp_all [once]

theorem OncePc.eq_asleep {pc : OncePc} (h : pc.sleeping ≠ 0) : pc = .asleep := by
  cases pc <;> first | rfl | exact absurd rfl h

variable {C : Type*} [Fintype C]

/-- The account of the word, and of those who wait for it: they sleep while it says so, or a wake is
on its way. -/
structure OnceInv (s : OnceState C) : Prop where
  account : OnceAccount s.shared (s.total inside) (s.total finishing)
  returns : ∀ c, (s.at_ c).Returns → s.shared.control = 2
  wakes : s.shared.control ≠ 3 → 0 < s.total sleeping → 0 < s.total waking

namespace OnceInv

variable {s t : OnceState C}

theorem start : OnceInv (OnceState.start : OnceState C) := by
  have hnone : ∀ f : OncePc → ℕ, f .idle = 0 → (OnceState.start : OnceState C).total f = 0 :=
    fun f hf => Parked.total_eq_zero.mpr fun _ => hf
  refine ⟨?_, fun _ => False.elim, fun _ h => ?_⟩
  · rw [hnone inside rfl, hnone finishing rfl]
    exact ⟨.inl ⟨rfl, .inl rfl⟩, le_rfl, rfl⟩
  · rw [hnone sleeping rfl] at h
    exact absurd h (Nat.lt_irrefl 0)

/-- Whoever has completed the routine is within it. -/
theorem finishing_le_inside (s : OnceState C) : s.total finishing ≤ s.total inside := by
  refine Finset.sum_le_sum fun c _ => ?_
  cases s.at_ c <;> simp [finishing, inside]

variable [DecidableEq C] {c : C}

/-- **An act of one context** keeps the account. -/
theorem put (hi : OnceInv s) {w : OnceWord × OncePc}
    (hm : OnceMove s.shared (s.at_ c) w.1 w.2) : OnceInv (s.put c w) := by
  have hinside := s.total_put inside c w
  have hfinishing := s.total_put finishing c w
  have hsleeping := s.total_put sleeping c w
  have hwaking := s.total_put waking c w
  rw [hm.awake] at hwaking
  have hat : (s.at_ c).inside ≤ s.total inside := Parked.le_total c
  have hat' : (s.at_ c).finishing ≤ s.total finishing := Parked.le_total c
  -- without this context there are no more that finish than that run
  have hothers : s.total finishing + (s.at_ c).inside ≤
      s.total inside + (s.at_ c).finishing := by
    have hle := finishing_le_inside (s.goto c .idle)
    have h₁ := s.total_goto inside c .idle
    have h₂ := s.total_goto finishing c .idle
    have hidle : inside .idle = 0 ∧ finishing .idle = 0 := ⟨rfl, rfl⟩
    omega
  refine ⟨?_, fun x hx => ?_, fun hcontrol hasleep => ?_⟩
  · have haccount := hm.account _ _ hi.account hat hat' hothers
    have h₁ : (s.put c w).total inside = s.total inside + w.2.inside - (s.at_ c).inside := by
      omega
    have h₂ : (s.put c w).total finishing =
        s.total finishing + w.2.finishing - (s.at_ c).finishing := by
      omega
    rw [h₁, h₂]
    exact haccount
  · by_cases hxc : x = c
    · subst hxc
      rw [Parked.put_at_self] at hx
      exact hm.returns hx
    · rw [s.put_at_of_ne hxc] at hx
      have hset := hi.returns x hx
      -- nobody runs the routine once the word is set
      have hcontrol := hi.account.control
      exact hm.stays hset (by omega)
  · have hcontrol : w.1.control ≠ 3 := hcontrol
    have hnot : w.2.sleeping = 0 := by
      by_contra h
      exact hcontrol (hm.asleep h)
    by_cases hbefore : s.shared.control = 3
    · have hwake := (hm.wakes hbefore).resolve_left hcontrol
      omega
    · have hwake := hi.wakes hbefore (by omega)
      omega

/-- A wake leaves nobody asleep. -/
theorem wakeAll (hi : OnceInv s) {done : Bool} (hc : s.at_ c = .wake done) :
    OnceInv ((s.releaseAll (once C).sleepsOn OncePc.released ()).goto c (ended done)) := by
  have hpc : ∀ x, (s.releaseAll (once C).sleepsOn OncePc.released ()).at_ x =
      if (s.at_ x).sleeping ≠ 0 then .test else s.at_ x := by
    intro x
    simp only [Parked.releaseAll, once_sleepsOn]
    split_ifs with hx
    · rw [OncePc.eq_asleep hx]
      rfl
    · rfl
  have hshared : (s.releaseAll (once C).sleepsOn OncePc.released ()).shared = s.shared := rfl
  generalize s.releaseAll (once C).sleepsOn OncePc.released () = u at hpc hshared
  have hsame : ∀ f : OncePc → ℕ, f .asleep = f .test → u.total f = s.total f := by
    intro f hf
    refine Parked.total_congr fun x => ?_
    rw [hpc]
    split_ifs with hx
    · rw [OncePc.eq_asleep hx, hf]
    · rfl
  have hat : u.at_ c = .wake done := by
    rw [hpc, hc]
    rfl
  have hinside := u.total_goto inside c (ended done)
  have hfinishing := u.total_goto finishing c (ended done)
  have hsleeping := u.total_goto sleeping c (ended done)
  rw [hat] at hinside hfinishing hsleeping
  have hnone : u.total sleeping = 0 := by
    refine Parked.total_eq_zero.mpr fun x => ?_
    rw [hpc]
    split_ifs with hx
    · rfl
    · exact not_not.mp hx
  have hended : inside (ended done) = 0 ∧ finishing (ended done) = 0 ∧
      sleeping (ended done) = 0 := by
    cases done <;> exact ⟨rfl, rfl, rfl⟩
  have hwake : inside (.wake done) = 0 ∧ finishing (.wake done) = 0 ∧ sleeping (.wake done) = 0 :=
    ⟨rfl, rfl, rfl⟩
  refine ⟨?_, fun x hx => ?_, fun _ h => ?_⟩
  · have h₁ : (u.goto c (ended done)).total inside = s.total inside := by
      have := hsame inside rfl
      omega
    have h₂ : (u.goto c (ended done)).total finishing = s.total finishing := by
      have := hsame finishing rfl
      omega
    rw [h₁, h₂, Parked.goto_shared, hshared]
    exact hi.account
  · rw [Parked.goto_shared, hshared]
    by_cases hxc : x = c
    · subst hxc
      rw [Parked.goto_at_self] at hx
      refine hi.returns x ?_
      rw [hc]
      cases done
      · exact hx.elim
      · trivial
    · rw [u.goto_at_of_ne hxc, hpc] at hx
      split_ifs at hx with hslept
      · exact hx.elim
      · exact hi.returns x hx
  · omega

theorem stepped (hi : OnceInv s) (h : (once C).Stepped s t) : OnceInv t := by
  cases h with
  | act c a h => exact hi.put (onceMove_act h)
  | wakeNone c h hnone => cases (once_wakes h).1
  | wakeOne c y h hy hne => cases (once_wakes h).1
  | wakeAll c h =>
    obtain ⟨-, done, hc, rfl⟩ := once_wakes h
    exact hi.wakeAll hc

end OnceInv

variable [DecidableEq C]

/-- **The routine is run once.** In every run, cancellations included: one context at most is within
the routine, and none once it has been completed; it is completed at most once, and a call has
returned only where it was; while no context runs it the word says whether it was; and where a
context sleeps for it, one runs it or a wake of all is on its way. -/
theorem once_runs_once {s : OnceState C}
    (h : Reachable (once C).step OnceState.start s) :
    (∀ c d, (s.at_ c).inside = 1 → (s.at_ d).inside = 1 → c = d) ∧
      (∀ c, s.at_ c = .init → s.shared.completed = 0) ∧
      s.shared.completed ≤ 1 ∧
      (∀ c, s.at_ c = .returned → s.shared.completed = 1) ∧
      ((∀ c, (s.at_ c).inside = 0) → s.shared.control = 2 * s.shared.completed) ∧
      ((∃ x, s.at_ x = .asleep) →
        ∃ c, (∃ done, s.at_ c = .wake done) ∨ (s.at_ c).inside = 1) := by
  have hi : OnceInv s := Parking.invariant OnceInv.start (fun _ _ hu hv => hu.stepped hv) h
  have hcontrol := hi.account.control
  have hcompleted := hi.account.completed
  have hbelow := hi.account.finishing_le
  refine ⟨fun c d hc hd => ?_, fun c hc => ?_, ?_, fun c hc => ?_, fun hnone => ?_, ?_⟩
  · by_contra hne
    have hboth := Parked.add_le_total (f := inside) (s := s) hne
    omega
  · -- the others do not finish while this one is within the routine
    have hat : (s.at_ c).inside ≤ s.total inside := Parked.le_total c
    have hle := OnceInv.finishing_le_inside (s.goto c .idle)
    have h₁ := s.total_goto inside c .idle
    have h₂ := s.total_goto finishing c .idle
    have hidle : inside .idle = 0 ∧ finishing .idle = 0 := ⟨rfl, rfl⟩
    have hinit : inside .init = 1 ∧ finishing .init = 0 := ⟨rfl, rfl⟩
    rw [hc] at hat h₁ h₂
    have hnot : s.shared.control ≠ 2 := by omega
    rw [if_neg hnot] at hcompleted
    omega
  · split_ifs at hcompleted <;> omega
  · have hset := hi.returns c (by rw [hc]; trivial)
    rw [if_pos hset] at hcompleted
    omega
  · have hzero : s.total inside = 0 := Parked.total_eq_zero.mpr hnone
    split_ifs at hcompleted with hset <;> omega
  · rintro ⟨x, hx⟩
    have hsome : 0 < s.total sleeping := by
      have hat : (s.at_ x).sleeping ≤ s.total sleeping := Parked.le_total x
      rw [hx] at hat
      exact hat
    by_cases hmarked : s.shared.control = 3
    · obtain ⟨c, hc⟩ := Parked.exists_of_total_pos (f := inside) (s := s) (by omega)
      have hat : (s.at_ c).inside ≤ s.total inside := Parked.le_total c
      exact ⟨c, .inr (by omega)⟩
    · obtain ⟨c, hc⟩ := Parked.exists_of_total_pos (hi.wakes hmarked hsome)
      refine ⟨c, .inl ?_⟩
      revert hc
      cases s.at_ c <;> simp [waking]

/-- One context runs the routine and is cancelled, when the other sleeps. -/
def cancelledOnce : List (ParkMove Bool OnceAct) :=
  .act true .call :: List.replicate 2 (.act true .step) ++
    .act false .call :: List.replicate 106 (.act false .step) ++ [.act true .cancel]

theorem once_runs_once_cancelled :
    ∃ s : OnceState Bool, Reachable (once Bool).step OnceState.start s ∧
      s.at_ false = .asleep ∧ s.at_ true = .undo ∧ s.shared.completed ≤ 1 := by
  have hrun : (run (once Bool).step OnceState.start cancelledOnce).map
      (fun s => (s.at_ false, s.at_ true)) = some (.asleep, .undo) := by decide +kernel
  obtain ⟨s, hs, heq⟩ := Option.map_eq_some_iff.mp hrun
  simp only [Prod.mk.injEq] at heq
  exact ⟨s, ⟨_, hs⟩, heq.1, heq.2, (once_runs_once ⟨_, hs⟩).2.2.1⟩

end OpenkalMusl
