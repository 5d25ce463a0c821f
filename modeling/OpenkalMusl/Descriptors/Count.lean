import OpenkalMusl.Descriptors.Locking
import OpenkalMusl.Finite.Occupancy

/-!
# The descriptor table's counts

A description's count is the number of descriptors that name it, in every reachable state, and a
description is free exactly when no descriptor names it. There are as many descriptions as
descriptors, so one is free wherever a descriptor is, and a bind upon a descriptor just found
free cannot fail.

Within an operation the count and the descriptors disagree for a moment: the invariant is stated
against any count (`Counted`), and is exact (`Exact`) at the operation's end.

## Main definitions

* `named`: which description each descriptor names
* `Counted w c`: the counts of the table are `c`
* `Exact w`: the counts are the numbers of descriptors

## Main results

* `exact_okmFdBind`, `exact_okmFdDup`, `exact_okmFdRelease`: the operations keep the counts exact
* `counts_exact`: the counts are exact in every reachable state, and a bind cannot fail there
-/

namespace OpenkalMusl

open Transition Occupancy

namespace PortState

/-- The description each descriptor names. -/
def named (w : PortState) : Fin okmMaxFd → Option (Fin okmMaxDesc) := fun f => (w.fd f).desc

theorem named_congr {w w' : PortState} (h : w'.fd = w.fd) : w'.named = w.named := by
  funext f
  rw [named, named, h]

/-- The table's counts are `c`, and the free descriptions are those it counts zero. -/
def Counted (w : PortState) (c : Fin okmMaxDesc → ℕ) : Prop :=
  ∀ d, (w.desc d).refs = c d ∧ ((w.desc d).kind = .free ↔ c d = 0)

/-- The table's counts are the numbers of descriptors. -/
def Exact (w : PortState) : Prop := w.Counted (occ w.named)

/-! ## What the allocators answer -/

theorem okmFdAlloc_eq_ok {w : PortState} {from_ : Int} {f : Fin okmMaxFd}
    (h : w.okmFdAlloc from_ = .ok f) : (w.fd f).desc = none := by
  unfold okmFdAlloc at h
  simp only at h
  split at h
  · rename_i g hg
    cases h
    have := List.find?_some hg
    simp only [decide_eq_true_eq] at this
    exact this.2
  · cases h

theorem descAlloc_eq_some {w : PortState} {d : Fin okmMaxDesc} (h : w.descAlloc = some d) :
    (w.desc d).refs = 0 := by
  simpa using List.find?_some h

theorem descAlloc_ne_none {w : PortState} {d : Fin okmMaxDesc} (h : (w.desc d).refs = 0) :
    w.descAlloc ≠ none := by
  intro hn
  have := List.find?_eq_none.mp hn d (List.mem_finRange d)
  simp [h] at this

theorem fdIndex_val (f : Fin okmMaxFd) : fdIndex f.val = some f := by
  have hlt : (f.val : Int) < okmMaxFd := by exact_mod_cast f.isLt
  simp [fdIndex, hlt]

/-! ## Counts -/

theorem Counted.congr {w w' : PortState} {c : Fin okmMaxDesc → ℕ} (h : w.Counted c)
    (hrefs : ∀ d, (w'.desc d).refs = (w.desc d).refs)
    (hkind : ∀ d, (w'.desc d).kind = (w.desc d).kind) : w'.Counted c := by
  intro d
  rw [hrefs, hkind]
  exact h d

/-- Writing one description of the table writes one count. -/
theorem Counted.setDesc {w : PortState} {c : Fin okmMaxDesc → ℕ} (h : w.Counted c)
    {d : Fin okmMaxDesc} {p : Desc} {n : ℕ} (hrefs : p.refs = n) (hkind : p.kind = .free ↔ n = 0) :
    (w.setDesc d p).Counted (Function.update c d n) := by
  intro e
  by_cases he : e = d
  · subst he
    simpa [PortState.setDesc] using ⟨hrefs, hkind⟩
  · simpa [PortState.setDesc, he] using h e

/-- A release counts one less. -/
theorem Counted.descRelease {w : PortState} {c : Fin okmMaxDesc → ℕ} (h : w.Counted c)
    (me : Context) {d : Fin okmMaxDesc} (hd : 0 < c d) :
    (w.descRelease me d).Counted (Function.update c d (c d - 1)) := by
  obtain ⟨hrefs, hkind⟩ := h d
  have hlive : (w.desc d).kind ≠ .free := fun hf => by
    have := hkind.mp hf
    omega
  unfold PortState.descRelease
  simp only
  split_ifs with hpos
  · -- others name it still, and its kind stays
    refine h.setDesc (by simp only; omega) ?_
    simp only [hlive, false_iff]
    omega
  · -- the last descriptor: what is given up leaves the other descriptions alone
    refine Counted.setDesc (h.congr (by simp) (by simp)) ?_ ?_
    · simp only [Desc.released]
      omega
    · simp only [Desc.released, true_iff]
      omega

@[simp] theorem descRelease_fd (w : PortState) (me : Context) (d : Fin okmMaxDesc) :
    (w.descRelease me d).fd = w.fd := by
  unfold PortState.descRelease
  simp only
  split_ifs <;> simp

@[simp] theorem vacate_fd (w : PortState) (me : Context) (f : Fin okmMaxFd) :
    (w.vacate me f).fd = w.fd := by
  unfold vacate
  split <;> simp

theorem Counted.vacate {w : PortState} {c : Fin okmMaxDesc → ℕ} (h : w.Counted c) (me : Context)
    {f : Fin okmMaxFd} (hf : ∀ k, w.named f = some k → 0 < c k) :
    (w.vacate me f).Counted fun k => c k - if w.named f = some k then 1 else 0 := by
  unfold PortState.vacate
  cases hd : (w.fd f).desc with
  | none => simpa [named, hd] using h
  | some old =>
    -- one count less for the description that was named, which is one write of the counts
    have hc : (fun k => c k - if w.named f = some k then 1 else 0) =
        Function.update c old (c old - 1) := by
      funext k
      by_cases hk : k = old
      · subst hk
        simp [named, hd]
      · have hne : ¬ old = k := fun he => hk he.symm
        simp [named, hd, hk, hne]
    rw [hc]
    exact h.descRelease me (hf old hd)

theorem named_setFd (w : PortState) (f : Fin okmMaxFd) (s : FdSlot) :
    (w.setFd f s).named = Function.update w.named f s.desc := by
  funext g
  by_cases hg : g = f
  · subst hg
    simp [named, setFd]
  · simp [named, setFd, hg]

/-- A table whose counts are those of the descriptors after one is written is exact then. -/
theorem Counted.exact_setFd {w : PortState} {c : Fin okmMaxDesc → ℕ} (h : w.Counted c)
    {f : Fin okmMaxFd} {s : FdSlot}
    (hc : ∀ k, c k + (if w.named f = some k then 1 else 0) =
      occ w.named k + (if s.desc = some k then 1 else 0)) :
    (w.setFd f s).Exact := by
  have hocc : occ (w.setFd f s).named = c := by
    funext k
    have hupd := occ_update w.named f s.desc k
    rw [named_setFd]
    have := hc k
    omega
  intro d
  rw [hocc]
  exact h d

/-- A description that is allocated is named by no descriptor. -/
theorem Exact.occ_descAlloc {w : PortState} (h : w.Exact) {d : Fin okmMaxDesc}
    (hd : w.descAlloc = some d) : occ w.named d = 0 := by
  have := (h d).1
  rw [descAlloc_eq_some hd] at this
  omega

/-- A description that a descriptor names is in use. -/
theorem Exact.live {w : PortState} (h : w.Exact) {f : Fin okmMaxFd} {d : Fin okmMaxDesc}
    (hf : w.named f = some d) : (w.desc d).kind ≠ .free := by
  intro hfree
  have hzero := (h d).2.mp hfree
  have hpos := occ_pos hf
  omega

/-! ## The operations -/

theorem exact_okmFdRelease {w : PortState} (h : w.Exact) (me : Context) (fd : Int) :
    (w.okmFdRelease me fd).Exact := by
  rcases w.okmFdRelease_cases me fd with he | ⟨f, d, hf, he⟩
  · rwa [he]
  replace hf : w.named f = some d := hf
  -- the descriptor is emptied before the description is released
  have hc := Counted.descRelease (w := w.setFd f {}) (fun e => h e) me (occ_pos hf)
  have hnamed : ((w.setFd f {}).descRelease me d).named = Function.update w.named f none := by
    rw [named_congr (descRelease_fd ..), named_setFd]
  have hocc : occ (Function.update w.named f none) =
      Function.update (occ w.named) d (occ w.named d - 1) := by
    funext k
    have hupd := occ_update w.named f none k
    rw [hf] at hupd
    by_cases hk : k = d
    · subst hk
      simp at hupd ⊢
      omega
    · have hne : ¬ d = k := fun he => hk he.symm
      simpa [hk, hne] using hupd
  intro e
  rw [he, hnamed, hocc]
  exact hc e

theorem exact_okmFdBind {w : PortState} (h : w.Exact) (me : Context) (fd : Int) {kind : Kind}
    (hkind : kind ≠ .free) (stream file dir : Handle) (flags : ℕ) :
    (w.okmFdBind me fd kind stream file dir flags).1.Exact := by
  rcases w.okmFdBind_cases me fd kind stream file dir flags with he | ⟨f, d, -, hd, he⟩
  · rwa [he]
  rw [he]
  have hzero := h.occ_descAlloc hd
  -- the new description is counted before a descriptor names it
  have hnew : (w.bindDesc d ((w.desc d).bind kind stream file dir flags)).Counted
      (Function.update (occ w.named) d 1) :=
    Counted.congr (Counted.setDesc h rfl (by simp [Desc.bind, hkind])) (fun _ => rfl) fun _ => rfl
  have hnamed : (w.bindDesc d ((w.desc d).bind kind stream file dir flags)).named = w.named := rfl
  -- the old description of the target is not the new one, which no descriptor names
  have hne : ∀ k, w.named f = some k → k ≠ d := by
    rintro k hk rfl
    have := occ_pos hk
    omega
  refine (hnew.vacate me (f := f) ?_).exact_setFd fun k => ?_
  · intro k hk
    rw [hnamed] at hk
    simpa [hne k hk] using occ_pos hk
  · have hvac : ((w.bindDesc d ((w.desc d).bind kind stream file dir flags)).vacate me f).named =
        w.named := named_congr (vacate_fd ..)
    rw [hnamed, hvac]
    by_cases hk : k = d
    · subst hk
      have : w.named f ≠ some k := fun he => hne k he rfl
      simp [this, hzero]
    · have hdk : ¬ d = k := fun he => hk he.symm
      by_cases hf : w.named f = some k
      · have := occ_pos hf
        simp only [hf, Function.update_of_ne hk, Option.some.injEq, hdk, if_true, if_false]
        omega
      · simp [hf, hk, hdk]

theorem exact_okmFdDup {w : PortState} (h : w.Exact) (me : Context) (fd newfd : Int)
    (cloexec : Bool) : (w.okmFdDup me fd newfd cloexec).1.Exact := by
  rcases w.okmFdDup_cases me fd newfd cloexec with he | ⟨f, n, d, hf, hnf, he⟩
  · rwa [he]
  rw [he]
  replace hf : w.named f = some d := hf
  -- the source's descriptor goes on naming the description while the target is vacated
  have hother : (if w.named n = some d then 1 else 0) < occ w.named d := by
    have hupd := occ_update w.named n none d
    have hpos : 0 < occ (Function.update w.named n none) d :=
      occ_pos (i := f) (by rw [Function.update_of_ne (Ne.symm hnf)]; exact hf)
    simp only [reduceCtorEq, if_false] at hupd
    omega
  have hvac := Counted.vacate h me (f := n) fun k hk => occ_pos hk
  have hnamed : (w.vacate me n).named = w.named := named_congr (vacate_fd ..)
  have hlive := hvac d
  -- counted after the target was vacated, as the source does: one less for what it named, one more
  -- for `d`
  refine (Counted.setDesc hvac (d := d) (p := { (w.vacate me n).desc d with
    refs := ((w.vacate me n).desc d).refs + 1 })
    (n := occ w.named d - (if w.named n = some d then 1 else 0) + 1) ?_ ?_).exact_setFd fun k => ?_
  · simp only [hlive.1]
    push_cast
    rfl
  · simp only [hlive.2]
    omega
  · change _ + (if (w.vacate me n).named n = some k then 1 else 0) =
      occ (w.vacate me n).named k + _
    rw [hnamed]
    by_cases hk : k = d
    · subst hk
      simp only [Function.update_self, if_true]
      omega
    · have hdk : ¬ d = k := fun he => hk he.symm
      by_cases hn : w.named n = some k
      · have := occ_pos hn
        simp only [hn, Function.update_of_ne hk, Option.some.injEq, hdk, if_true, if_false]
        omega
      · simp [hn, hk, hdk]

theorem okmDirRemember_fd (w : PortState) (fd : Int) (abs : Text) (alloc : Option ℕ) :
    (w.okmDirRemember fd abs alloc).fd = w.fd := by
  rcases w.okmDirRemember_cases fd abs alloc with
    he | ⟨d, -, ⟨slot, -, he⟩ | ⟨-, he | ⟨slot, -, he⟩⟩⟩
  · rw [he]
  · simp [he]
  · simp [he]
  · simp [he, takePathSlot]

/-- Recording a name changes no description but in its slot. -/
theorem okmDirRemember_desc (w : PortState) (fd : Int) (abs : Text) (alloc : Option ℕ)
    (d : Fin okmMaxDesc) : ∃ slot,
      (w.okmDirRemember fd abs alloc).desc d = { w.desc d with pathSlot := slot } := by
  rcases w.okmDirRemember_cases fd abs alloc with
    he | ⟨d', -, ⟨slot, -, he⟩ | ⟨-, he | ⟨slot, -, he⟩⟩⟩
  · exact ⟨_, by rw [he]⟩
  · exact ⟨(w.desc d).pathSlot, by simp [he]⟩
  · exact ⟨(w.desc d).pathSlot, by simp [he]⟩
  · by_cases hd : d = d'
    · subst hd
      exact ⟨some slot, by simp [he, setDesc_desc]⟩
    · exact ⟨(w.desc d).pathSlot, by simp [he, setDesc_desc, hd, takePathSlot]⟩

theorem named_okmFdCloexec (w : PortState) (fd : Int) (on : Bool) :
    (w.okmFdCloexec fd on).1.named = w.named := by
  rcases w.okmFdCloexec_cases fd on with he | ⟨f, d, hf, he⟩
  · rw [he]
  · rw [he, named_setFd]
    exact Function.update_eq_self_iff.mpr hf.symm

theorem okmFdCloexec_desc (w : PortState) (fd : Int) (on : Bool) :
    (w.okmFdCloexec fd on).1.desc = w.desc := by
  rcases w.okmFdCloexec_cases fd on with he | ⟨f, d, -, he⟩ <;> rw [he]
  rfl

theorem Exact.congr {w w' : PortState} (h : w.Exact) (hnamed : w'.named = w.named)
    (hrefs : ∀ d, (w'.desc d).refs = (w.desc d).refs)
    (hkind : ∀ d, (w'.desc d).kind = (w.desc d).kind) : w'.Exact := by
  unfold Exact
  rw [hnamed]
  exact Counted.congr h hrefs hkind

theorem exact_rules (me : Context) : OpRules me Exact where
  bind := fun _ f _ stream file dir flags hk h => exact_okmFdBind h me f hk stream file dir flags
  dup := fun _ fd newfd cloexec h => exact_okmFdDup h me fd newfd cloexec
  release := fun _ fd h => exact_okmFdRelease h me fd
  cloexec := fun w fd on h =>
    h.congr (named_okmFdCloexec w fd on) (by simp [okmFdCloexec_desc]) (by simp [okmFdCloexec_desc])
  remember := fun w fd abs alloc _ h => by
    refine h.congr (named_congr (okmDirRemember_fd ..)) (fun d => ?_) fun d => ?_
    · obtain ⟨slot, hd⟩ := okmDirRemember_desc w fd abs alloc d
      rw [hd]
    · obtain ⟨slot, hd⟩ := okmDirRemember_desc w fd abs alloc d
      rw [hd]
  sock := fun _ _ h => h
  descSock := fun w d slot h => by
    refine h.congr rfl (fun e => ?_) fun e => ?_ <;>
    · rw [setDesc_desc]
      by_cases he : e = d
      · subst he
        simp
      · simp [he]
  returned := fun _ _ h => h

theorem exact_okmTableInitMemory (start : Start) : (okmTableInitMemory start).Exact := by
  intro d
  have hocc : occ (okmTableInitMemory start).named d = 0 := by
    rw [occ_eq_zero_iff]
    intro f
    simp [named, okmTableInitMemory]
  rw [hocc]
  exact ⟨rfl, by simp [okmTableInitMemory]⟩

/-- Upon a descriptor found free a bind succeeds: there are as many descriptions as
descriptors. -/
theorem Exact.okmFdBind_ok {w : PortState} (h : w.Exact) {f : Fin okmMaxFd}
    (hf : (w.fd f).desc = none) (me : Context) (kind : Kind) (stream file dir : Handle)
    (flags : ℕ) :
    ∃ d, w.okmFdBind me f.val kind stream file dir flags =
      ((w.bindDesc d ((w.desc d).bind kind stream file dir flags)).setFd f
        ⟨some d, hasFlag flags oCloexec⟩, .ok f) ∧ w.descAlloc = some d := by
  -- a free descriptor leaves a description unnamed, since there are no fewer descriptions
  obtain ⟨e, he⟩ : ∃ e, occ w.named e = 0 :=
    exists_occ_eq_zero (i := f) le_rfl hf
  have hrefs : (w.desc e).refs = 0 := by rw [(h e).1, he]; rfl
  obtain ⟨d, hd⟩ := Option.ne_none_iff_exists'.mp (descAlloc_ne_none hrefs)
  have hvac : (w.bindDesc d ((w.desc d).bind kind stream file dir flags)).vacate me f =
      w.bindDesc d ((w.desc d).bind kind stream file dir flags) := by
    unfold PortState.vacate
    simp [bindDesc, hf]
  exact ⟨d, by simp only [okmFdBind, fdIndex_val, hd, hvac], hd⟩

end PortState

namespace System

open PortState

theorem exact_of_reachable {me : Context} {start : Start} {s : System}
    (h : Reachable step (System.start me start) s) : s.port.Exact :=
  port_invariant exact_rules exact_okmTableInitMemory (fun _ _ _ _ _ h => h) (fun _ _ h => h)
    (fun _ _ _ h => h) h

/-- **The descriptor table's counts are exact.** In every reachable state a description's count is
the number of descriptors that name it and it is free exactly when that number is zero; a bind
upon a descriptor found free succeeds, and the descriptor then names a description of that kind. -/
theorem counts_exact {me : Context} {start : Start} {s : System}
    (h : Reachable step (System.start me start) s) :
    (∀ d, (s.port.desc d).refs = (Finset.univ.filter fun f => (s.port.fd f).desc = some d).card ∧
      ((s.port.desc d).kind = .free ↔
        (Finset.univ.filter fun f => (s.port.fd f).desc = some d).card = 0)) ∧
    ∀ c from_ f kind stream file dir flags, s.port.okmFdAlloc from_ = .ok f →
      (s.port.okmFdBind c f.val kind stream file dir flags).2 = .ok f ∧
      ∃ d, (s.port.okmFdBind c f.val kind stream file dir flags).1.okmDescOf f.val = some d ∧
        ((s.port.okmFdBind c f.val kind stream file dir flags).1.desc d).kind = kind := by
  have hexact := exact_of_reachable h
  refine ⟨fun d => hexact d, ?_⟩
  intro c from_ f kind stream file dir flags hf
  obtain ⟨d, hbind, -⟩ :=
    hexact.okmFdBind_ok (okmFdAlloc_eq_ok hf) c kind stream file dir flags
  rw [hbind]
  refine ⟨rfl, d, ?_, ?_⟩
  · simp [okmDescOf, fdIndex_val, setFd]
  · simp [bindDesc, setDesc_desc, Desc.bind]

theorem counts_exact_dup :
    ∃ s, run step (System.start 1 .supplied) [.lock 1, .op 1 (.dup 1 5 false)] = some s ∧
      (s.port.fd ⟨5, by decide⟩).desc = some ⟨1, by decide⟩ ∧
      ∀ d, (s.port.desc d).refs =
        (Finset.univ.filter fun f => (s.port.fd f).desc = some d).card := by
  refine ⟨_, rfl, by decide +kernel, fun d => ?_⟩
  exact ((counts_exact ⟨[.lock 1, .op 1 (.dup 1 5 false)], rfl⟩).1 d).1

end System

end OpenkalMusl
