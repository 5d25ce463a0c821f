import OpenkalMusl.Descriptors.Ledger

/-!
# Duplicating a descriptor onto a number

`dup2` and `dup3` ask for a number, and `dup` for the lowest free one. `okm_fd_dup` serves them all
and is told by a negative number that the lowest free one is meant, which `dup2` and `dup3` pass on
where their caller gives one. With any other number they give that number or leave the table as it
was.

## Main definitions

* `PortState.sysDup2`, `PortState.sysDup3`: the system calls
* `PortState.dup2`, `PortState.dup3`: musl's functions over them
* `PortState.Gives`: a number names what another one named, and nothing else changed

## Main results

* `gives_okmFdDup`: a duplication onto another number
* `dup_given_iff`: when a call gives the number asked for or changes nothing
-/

namespace OpenkalMusl

open Transition Occupancy

/-- Two descriptions are the same but for the number of descriptors that name them. -/
def Desc.SameThing (p q : Desc) : Prop := { p with refs := q.refs } = q

theorem Desc.SameThing.refl (p : Desc) : p.SameThing p := rfl

theorem Desc.SameThing.trans {p q r : Desc} (h : p.SameThing q) (h' : q.SameThing r) :
    p.SameThing r := by
  unfold Desc.SameThing at *
  rw [← h', ← h]

instance (p q : Desc) : Decidable (p.SameThing q) := inferInstanceAs (Decidable (_ = _))

namespace PortState

/-! ## The calls -/

/-- `okm_fd_dup` in a holding of the lock. -/
def sysDup (w : PortState) (me : Context) (fd newfd : Int) (cloexec : Bool) :
    PortState × Except Errno ℕ :=
  let r := w.okmFdDup me fd newfd cloexec
  (r.1.leave me, r.2.map Fin.val)

/-- `SYS_dup2`. -/
def sysDup2 (w : PortState) (me : Context) (fd newfd : Int) : PortState × Except Errno ℕ :=
  w.sysDup me fd newfd false

/-- `SYS_dup3`. -/
def sysDup3 (w : PortState) (me : Context) (fd newfd : Int) (flags : ℕ) :
    PortState × Except Errno ℕ :=
  w.sysDup me fd newfd (hasFlag flags oCloexec)

def fdCloexec : ℕ := 1

/-- `F_GETFD`. -/
def fGetfd (w : PortState) (fd : Int) : Except Errno ℕ :=
  match fdIndex fd with
  | none => .error .ebadf
  | some f =>
    if (w.fd f).desc = none then .error .ebadf
    else .ok (if (w.fd f).cloexec then fdCloexec else 0)

/-- musl's `dup2`; `direct` is whether the target has a number for `SYS_dup2`. The call is repeated
while it answers `EBUSY`, which it never does. -/
def dup2 (direct : Bool) (w : PortState) (me : Context) (old new : Int) :
    PortState × Except Errno ℕ :=
  if direct then w.sysDup2 me old new
  else if old = new then
    match w.fGetfd old with
    | .ok _ => (w, .ok old.toNat)
    | .error e => (w, .error e)
  else w.sysDup3 me old new 0

/-- musl's `dup3`, with its way around a system that lacks the call. -/
def dup3 (direct : Bool) (w : PortState) (me : Context) (old new : Int) (flags : ℕ) :
    PortState × Except Errno ℕ :=
  if direct then
    if old = new then (w, .error .einval)
    else if flags = 0 then w.sysDup2 me old new
    else match w.sysDup3 me old new flags with
      | (w, .error .enosys) =>
        if otherFlags flags oCloexec ≠ 0 then (w, .error .einval)
        else match w.sysDup2 me old new with
          | (w, .ok n) =>
            (if hasFlag flags oCloexec then (w.okmFdCloexec new true).1 else w, .ok n)
          | r => r
      | r => r
  else w.sysDup3 me old new flags

/-! ## What a duplication promises -/

/-- `newfd` names what `fd` named, and every other descriptor what it did. -/
def Gives (w v : PortState) (fd newfd : Int) : Prop :=
  (∃ d, w.okmDescOf fd = some d ∧ v.okmDescOf newfd = some d ∧
      (v.desc d).SameThing (w.desc d)) ∧
    ∀ g, g ≠ newfd → v.okmDescOf g = w.okmDescOf g ∧
      ∀ d, w.okmDescOf g = some d → (v.desc d).SameThing (w.desc d)

/-- The number asked for is given, or an error leaves the table exactly as it was; a number outside
the table and a descriptor that is not open are `EBADF`. -/
structure GivenOrUnchanged (w : PortState) (fd newfd : Int) (r : PortState × Except Errno ℕ) :
    Prop where
  given : ∀ n, r.2 = .ok n → (n : Int) = newfd ∧ w.Gives r.1 fd newfd
  unchanged : ∀ e, r.2 = .error e → r.1 = w
  badf : newfd < 0 ∨ (okmMaxFd : Int) ≤ newfd ∨ w.okmDescOf fd = none → r.2 = .error .ebadf

variable {w : PortState} {me : Context}

/-- The entry of a number is the one of that number. -/
theorem val_of_fdIndex {fd : Int} {f : Fin okmMaxFd} (h : fdIndex fd = some f) :
    (f.val : Int) = fd := by
  unfold fdIndex at h
  split_ifs at h with hrange
  obtain rfl := Option.some.inj h
  exact Int.toNat_of_nonneg hrange.1

theorem okmDescOf_eq_some {fd : Int} {d : Fin okmMaxDesc} (h : w.okmDescOf fd = some d) :
    ∃ f : Fin okmMaxFd, fdIndex fd = some f ∧ (f.val : Int) = fd ∧ w.named f = some d := by
  unfold okmDescOf at h
  obtain ⟨f, hf, hd⟩ := Option.bind_eq_some_iff.mp h
  exact ⟨f, hf, val_of_fdIndex hf, hd⟩

theorem gives_refl {fd : Int} {d : Fin okmMaxDesc} (h : w.okmDescOf fd = some d) :
    w.Gives w fd fd :=
  ⟨⟨d, h, h, rfl⟩, fun _ _ => ⟨rfl, fun _ _ => rfl⟩⟩

/-! ## One duplication -/

/-- A description that another descriptor names stays what it is when one is vacated. -/
theorem Exact.vacate_desc (h : w.Exact) (me : Context) {n g : Fin okmMaxFd} (hgn : g ≠ n)
    {d : Fin okmMaxDesc} (hg : w.named g = some d) :
    ((w.vacate me n).desc d).SameThing (w.desc d) := by
  unfold vacate
  cases hn : (w.fd n).desc with
  | none => exact .refl _
  | some old =>
    by_cases hd : d = old
    · subst hd
      -- two descriptors name it, so that it outlives the release
      have hpair : ({g, n} : Finset (Fin okmMaxFd)) ⊆
          Finset.univ.filter fun f => w.named f = some d := by
        intro f hf
        rcases Finset.mem_insert.mp hf with rfl | hf
        · simpa using hg
        · rw [Finset.mem_singleton.mp hf, Finset.mem_filter]
          exact ⟨Finset.mem_univ n, hn⟩
      have htwo : 2 ≤ occ w.named d := by
        have hcard := Finset.card_le_card hpair
        rwa [Finset.card_pair hgn] at hcard
      have hrefs := (h d).1
      unfold descRelease
      simp only
      rw [if_pos (by omega), setDesc_desc, Function.update_self]
      rfl
    · have hdesc : (w.descRelease me old).desc d = w.desc d := by
        unfold descRelease
        simp only
        split_ifs <;> simp [setDesc_desc, hd]
      show ((w.descRelease me old).desc d).SameThing _
      rw [hdesc]
      exact .refl _

theorem addRef_desc (w : PortState) (d e : Fin okmMaxDesc) :
    ((w.addRef d).desc e).SameThing (w.desc e) := by
  unfold addRef
  rw [setDesc_desc]
  by_cases he : e = d
  · subst he
    rw [Function.update_self]
    rfl
  · rw [Function.update_of_ne he]
    exact .refl _

/-- **A duplication onto another number**: it names what the source named, and every other number
what it named before. -/
theorem gives_okmFdDup (me : Context) (h : w.Exact) {f n : Fin okmMaxFd} {d : Fin okmMaxDesc}
    (hfn : n ≠ f) (hf : w.named f = some d) (cloexec : Bool) :
    w.Gives ((((w.vacate me n).addRef d).setFd n ⟨some d, cloexec⟩).leave me) f.val n.val := by
  have hdesc : ∀ g : Fin okmMaxFd, g ≠ n → ∀ e, w.named g = some e →
      (((((w.vacate me n).addRef d).setFd n ⟨some d, cloexec⟩).leave me).desc e).SameThing
        (w.desc e) := by
    intro g hg e he
    rw [leave_desc]
    exact (addRef_desc _ d e).trans (h.vacate_desc me hg he)
  have hnamed : ((((w.vacate me n).addRef d).setFd n ⟨some d, cloexec⟩).leave me).named =
      Function.update w.named n (some d) := by
    rw [named_congr (leave_fd _ me), named_setFd]
    exact congrArg (fun t => Function.update t n _) (named_congr (vacate_fd w me n))
  have hdescOf : ∀ v : PortState, ∀ g : Fin okmMaxFd, v.okmDescOf g.val = v.named g := by
    intro v g
    simp [okmDescOf, fdIndex_val, named]
  -- the occupant that is let go may be cleared, and is named by no other number then
  refine ⟨⟨d, by rw [hdescOf, hf], ?_, hdesc f hfn.symm d hf⟩, fun g hg => ?_⟩
  · rw [hdescOf, hnamed, Function.update_self]
  · cases hidx : fdIndex g with
    | none => simp [okmDescOf, hidx]
    | some k =>
      have hk : (k.val : Int) = g := val_of_fdIndex hidx
      have hkn : k ≠ n := by
        rintro rfl
        exact hg hk.symm
      rw [← hk, hdescOf, hdescOf, hnamed, Function.update_of_ne hkn]
      exact ⟨rfl, fun e he => hdesc k hkn e he⟩

/-- **`okm_fd_dup`** in a holding of the lock, asked for a number that is not negative. -/
theorem givenOrUnchanged_sysDup (h : w.Exact) (hset : w.settling = []) (me : Context)
    (fd newfd : Int) (cloexec : Bool) (hask : w.okmDescOf fd = none ∨ 0 ≤ newfd) :
    w.GivenOrUnchanged fd newfd (w.sysDup me fd newfd cloexec) := by
  have hsame : w.leave me = w := leave_of_settled hset me
  -- an error before anything was done
  have herror : ∀ e, (newfd < 0 ∨ (okmMaxFd : Int) ≤ newfd ∨ w.okmDescOf fd = none → e = .ebadf) →
      w.GivenOrUnchanged fd newfd (w.leave me, (.error e : Except Errno ℕ)) := by
    intro e he
    exact ⟨fun _ h => (by cases h), fun _ _ => hsame, fun hbad => congrArg Except.error (he hbad)⟩
  unfold sysDup okmFdDup
  cases hf : fdIndex fd with
  | none => exact herror .ebadf fun _ => rfl
  | some f =>
    cases hd : (w.fd f).desc with
    | none =>
      simp only [hd]
      exact herror .ebadf fun _ => rfl
    | some d =>
      have hopen : w.okmDescOf fd = some d := by simp [okmDescOf, hf, hd]
      have hfd : (f.val : Int) = fd := by
        obtain ⟨g, hg, hgv, -⟩ := okmDescOf_eq_some hopen
        rw [hf] at hg
        rw [Option.some.inj hg, hgv]
      have hneg : ¬ newfd < 0 := by
        rcases hask with hnone | hge
        · rw [hopen] at hnone
          cases hnone
        · omega
      simp only [hd, if_neg hneg]
      cases hn : fdIndex newfd with
      | none => exact herror .ebadf fun _ => rfl
      | some n =>
        have hnv : (n.val : Int) = newfd := val_of_fdIndex hn
        have hgood : ¬ (newfd < 0 ∨ (okmMaxFd : Int) ≤ newfd ∨ w.okmDescOf fd = none) := by
          rw [hopen]
          simp only [reduceCtorEq, or_false]
          omega
        simp only
        by_cases hnf : n = f
        · rw [if_pos hnf]
          refine ⟨fun k hk => ?_, fun _ h => (by cases h), fun hbad => absurd hbad hgood⟩
          obtain rfl : n.val = k := by simpa [Except.map] using hk
          have heq : fd = newfd := by rw [← hfd, ← hnv, hnf]
          rw [hsame, ← heq]
          exact ⟨by rw [hnf, hfd], gives_refl hopen⟩
        · rw [if_neg hnf]
          refine ⟨fun k hk => ?_, fun _ h => (by cases h), fun hbad => absurd hbad hgood⟩
          obtain rfl : n.val = k := by simpa [Except.map] using hk
          refine ⟨hnv, ?_⟩
          have hgives := gives_okmFdDup me h hnf hd cloexec
          rwa [hfd, hnv] at hgives

/-- A negative number is answered with another one, or with the answer for a table that is full. -/
theorem sysDup_negative {fd newfd : Int} {d : Fin okmMaxDesc} (hopen : w.okmDescOf fd = some d)
    (hneg : newfd < 0) (me : Context) (cloexec : Bool) :
    (w.sysDup me fd newfd cloexec).2 ≠ .error .ebadf := by
  obtain ⟨f, hf, -, hd⟩ := okmDescOf_eq_some hopen
  replace hd : (w.fd f).desc = some d := hd
  unfold sysDup okmFdDup
  simp only [hf, hd, if_pos hneg]
  unfold okmFdAlloc
  simp only
  cases (List.finRange okmMaxFd).find? fun g =>
      (if (0 : Int) < 0 then 0 else 0) ≤ (g.val : Int) ∧ (w.fd g).desc = none with
  | none => simp [Except.map]
  | some g =>
    simp only
    split_ifs <;> simp [Except.map]

/-- A call fails for a bad number or a full table only. -/
theorem sysDup_error {fd newfd : Int} {cloexec : Bool} {e : Errno}
    (h : (w.sysDup me fd newfd cloexec).2 = .error e) : e = .ebadf ∨ e = .emfile := by
  have halloc : ∀ e', w.okmFdAlloc 0 = .error e' → e' = .emfile := by
    intro e' he'
    unfold okmFdAlloc at he'
    simp only at he'
    split at he'
    · cases he'
    · exact (Except.error.inj he').symm
  have hmap : ∀ (r : Except Errno (Fin okmMaxFd)), r.map Fin.val = .error e → r = .error e := by
    intro r hr
    cases r with
    | ok n => cases hr
    | error e' => exact congrArg Except.error (Except.error.inj hr)
  replace h := hmap _ h
  -- the exits of `okm_fd_dup` in order: two of `EBADF`, the full table, and a number too large
  unfold okmFdDup at h
  cases hf : fdIndex fd with
  | none =>
    simp only [hf] at h
    exact Or.inl (Except.error.inj h).symm
  | some f =>
    simp only [hf] at h
    cases hd : (w.fd f).desc with
    | none =>
      simp only [hd] at h
      exact Or.inl (Except.error.inj h).symm
    | some d =>
      simp only [hd] at h
      by_cases hneg : newfd < 0
      · simp only [if_pos hneg] at h
        cases hal : w.okmFdAlloc 0 with
        | error e' =>
          rw [hal] at h
          exact Or.inr (Except.error.inj h ▸ halloc e' hal)
        | ok n =>
          simp only [hal] at h
          split_ifs at h
      · simp only [if_neg hneg] at h
        cases hn : fdIndex newfd with
        | none =>
          simp only [hn] at h
          exact Or.inl (Except.error.inj h).symm
        | some n =>
          simp only [hn] at h
          split_ifs at h

/-- musl's `dup3` refuses equal numbers itself, and otherwise makes the call. -/
theorem dup3_eq (w : PortState) (me : Context) (old new : Int) (flags : ℕ) :
    dup3 true w me old new flags =
      if old = new then (w, .error .einval) else w.sysDup3 me old new flags := by
  unfold dup3
  rw [if_pos rfl]
  by_cases hold : old = new
  · rw [if_pos hold, if_pos hold]
  · rw [if_neg hold, if_neg hold]
    by_cases hflags : flags = 0
    · subst hflags
      rw [if_pos rfl]
      rfl
    · rw [if_neg hflags]
      cases hr : w.sysDup3 me old new flags with
      | mk v r =>
        cases r with
        | ok n => rfl
        | error e =>
          rcases sysDup_error (congrArg Prod.snd hr) with rfl | rfl <;> rfl

/-! ## The calls of a program -/

/-- A call that asks for a number. musl's `dup3` is not one of these: it refuses equal numbers with
`EINVAL`, open or not, and with others it makes one of these calls (`dup3_eq`). -/
inductive DupCall where
  | sysDup2 (fd newfd : Int)
  | sysDup3 (fd newfd : Int) (flags : ℕ)
  | dup2 (direct : Bool) (old new : Int)
  deriving DecidableEq

namespace DupCall

/-- The descriptor that is to be named once more. -/
def fd : DupCall → Int
  | .sysDup2 fd _ | .sysDup3 fd _ _ | .dup2 _ fd _ => fd

/-- The number asked for. -/
def newfd : DupCall → Int
  | .sysDup2 _ newfd | .sysDup3 _ newfd _ | .dup2 _ _ newfd => newfd

def run (w : PortState) (me : Context) : DupCall → PortState × Except Errno ℕ
  | .sysDup2 fd newfd => w.sysDup2 me fd newfd
  | .sysDup3 fd newfd flags => w.sysDup3 me fd newfd flags
  | .dup2 direct old new => PortState.dup2 direct w me old new

end DupCall

/-- What a descriptor's flag answers upon itself, musl's `dup2` where there is no call for it. -/
theorem givenOrUnchanged_fGetfd (fd : Int) :
    w.GivenOrUnchanged fd fd
      (match w.fGetfd fd with
        | .ok _ => (w, .ok fd.toNat)
        | .error e => (w, .error e)) := by
  unfold fGetfd
  cases hf : fdIndex fd with
  | none => exact ⟨fun _ h => (by cases h), fun _ _ => rfl, fun _ => rfl⟩
  | some f =>
    simp only
    by_cases hd : (w.fd f).desc = none
    · rw [if_pos hd]
      exact ⟨fun _ h => (by cases h), fun _ _ => rfl, fun _ => rfl⟩
    · rw [if_neg hd]
      obtain ⟨d, hd⟩ := Option.ne_none_iff_exists'.mp hd
      have hopen : w.okmDescOf fd = some d := by simp [okmDescOf, hf, hd]
      have hval : (f.val : Int) = fd := val_of_fdIndex hf
      refine ⟨fun n hn => ?_, fun _ h => (by cases h), fun hbad => ?_⟩
      · obtain rfl := Except.ok.inj hn
        exact ⟨by omega, gives_refl hopen⟩
      · -- a number that has an entry is in range, and this one is open
        rw [hopen] at hbad
        simp only [reduceCtorEq, or_false] at hbad
        omega

/-- musl's `dup2` of an open descriptor onto a negative number passes it on. -/
theorem dup2_negative {old new : Int} {d : Fin okmMaxDesc} (hopen : w.okmDescOf old = some d)
    (hneg : new < 0) (direct : Bool) : (PortState.dup2 direct w me old new).2 ≠ .error .ebadf := by
  have hne : old ≠ new := by
    obtain ⟨f, -, hf, -⟩ := okmDescOf_eq_some hopen
    omega
  unfold PortState.dup2
  cases direct with
  | true => exact sysDup_negative hopen hneg me _
  | false =>
    simp only [Bool.false_eq_true, if_false]
    rw [if_neg hne]
    exact sysDup_negative hopen hneg me _

end PortState

open PortState

/-- **When a call gives the number asked for or changes nothing**: on every reachable table with the
lock free, exactly where the number is not negative or the descriptor is not open. -/
theorem dup_given_iff {me : Context} {start : Start} {s : System}
    (h : Reachable System.step (System.start me start) s) (hfree : s.holder = none) (c : Context)
    (call : DupCall) :
    s.port.GivenOrUnchanged call.fd call.newfd (call.run s.port c) ↔
      (s.port.okmDescOf call.fd = none ∨ 0 ≤ call.newfd) := by
  have hexact := System.exact_of_reachable h
  have hset := (System.settlingInv_of_reachable h).settling_eq_nil hfree
  constructor
  · -- a negative number asks for the lowest free one, which is not refused as a bad number
    intro hkept
    by_contra hneither
    rw [not_or, not_le] at hneither
    obtain ⟨d, hd⟩ := Option.ne_none_iff_exists'.mp hneither.1
    have hbadf := hkept.badf (Or.inl hneither.2)
    cases call with
    | sysDup2 fd newfd => exact sysDup_negative hd hneither.2 c false hbadf
    | sysDup3 fd newfd flags => exact sysDup_negative hd hneither.2 c _ hbadf
    | dup2 direct old new => exact dup2_negative hd hneither.2 direct hbadf
  · intro hask
    cases call with
    | sysDup2 fd newfd => exact givenOrUnchanged_sysDup hexact hset c fd newfd false hask
    | sysDup3 fd newfd flags => exact givenOrUnchanged_sysDup hexact hset c fd newfd _ hask
    | dup2 direct old new =>
      simp only [DupCall.run, DupCall.fd, DupCall.newfd]
      cases direct with
      | true => exact givenOrUnchanged_sysDup hexact hset c old new false hask
      | false =>
        unfold PortState.dup2
        simp only [Bool.false_eq_true, if_false]
        by_cases hsame : old = new
        · -- without a call of its own `dup2` asks for the flags of an equal number
          rw [if_pos hsame, ← hsame]
          exact givenOrUnchanged_fGetfd old
        · rw [if_neg hsame]
          exact givenOrUnchanged_sysDup hexact hset c old new _ hask

/-- The output of a program that was just started onto the number 5. -/
theorem dup_given_iff_output :
    (System.start 1 .supplied).port.GivenOrUnchanged 1 5
      ((DupCall.dup2 true 1 5).run (System.start 1 .supplied).port 1) :=
  (dup_given_iff (Reachable.refl _ _) rfl 1 (.dup2 true 1 5)).mpr (Or.inr (by decide))

/-- `dup2(0, -1)` gives 3. -/
theorem negative_gives_lowest :
    ¬ ∀ me start s, Reachable System.step (System.start me start) s → s.holder = none → ∀ c,
      ∀ call : DupCall,
        s.port.GivenOrUnchanged call.fd call.newfd (call.run s.port c) := by
  intro hall
  have hkept := hall 1 .supplied _ (Reachable.refl _ _) rfl 1 (.dup2 true 0 (-1))
  have hthree : ((DupCall.dup2 true 0 (-1)).run (System.start 1 .supplied).port 1).2 = .ok 3 := by
    decide +kernel
  exact absurd (hkept.given 3 hthree).1 (by decide)

end OpenkalMusl
