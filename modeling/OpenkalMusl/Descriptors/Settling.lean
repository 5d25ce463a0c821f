import Mathlib.Data.List.Perm.Basic
import OpenkalMusl.Descriptors.Count

/-!
# Closing what was let go

A description whose last descriptor goes is copied aside, its slot is free at once, and what it
owned is closed by the context that let it go as that context releases the lock. The array it is
copied into is shared by every context and drained by owner; where it is full the resource is
closed under the lock instead.

The events recorded by the table are a ledger: every resource that was bound is held by an open
description or was let go, and every resource that was let go was closed by the context that let
it go, waits in the shared array, or waits in that context's own list.

## Main definitions

* `boundTimes`, `letGoBy`, `closedBy`: how often a resource was bound, and who let it go and
  closed it
* `Held`: what was bound is held or was let go
* `Balanced`: what a context let go of it has closed or has still to close

## Main results

* `takeSettling_perm`: what is taken out is what the context let go of, and the rest stays
* `closed_exactly_once`: every resource is closed once, by the context that let it go, before that
  context's call returns
-/

namespace OpenkalMusl

open Transition Occupancy

/-! ## The ledger -/

/-- How often a resource was bound into the table. -/
def boundTimes (log : List Event) (r : Resource) : ℕ :=
  log.countP fun
    | .bound _ o => o = some r
    | _ => false

/-- The contexts that let a resource go, in order. -/
def letGoBy (log : List Event) (r : Resource) : List Context :=
  log.filterMap fun
    | .letGo c r' => if r' = r then some c else none
    | _ => none

/-- The contexts that closed a resource, in order. -/
def closedBy (log : List Event) (r : Resource) : List Context :=
  log.filterMap fun
    | .closed c r' => if r' = r then some c else none
    | _ => none

/-- Events about the names of directories. -/
def Event.naming : Event → Bool
  | .named _ _ | .allocated _ _ | .freed _ _ => true
  | _ => false

theorem letGoBy_append (log es : List Event) (r : Resource) :
    letGoBy (log ++ es) r = letGoBy log r ++ letGoBy es r := List.filterMap_append

theorem closedBy_append (log es : List Event) (r : Resource) :
    closedBy (log ++ es) r = closedBy log r ++ closedBy es r := List.filterMap_append

theorem boundTimes_append (log es : List Event) (r : Resource) :
    boundTimes (log ++ es) r = boundTimes log r + boundTimes es r := List.countP_append

/-- Events about names change nothing in the ledger. -/
theorem naming_ledger {es : List Event} (h : ∀ e ∈ es, e.naming = true) (log : List Event)
    (r : Resource) :
    boundTimes (log ++ es) r = boundTimes log r ∧ letGoBy (log ++ es) r = letGoBy log r ∧
      closedBy (log ++ es) r = closedBy log r := by
  have hes : boundTimes es r = 0 ∧ letGoBy es r = [] ∧ closedBy es r = [] := by
    refine ⟨?_, ?_, ?_⟩
    · rw [boundTimes, List.countP_eq_zero]
      intro e he
      cases e <;> simp [Event.naming] at h ⊢
      exact absurd (h _ he) (by simp)
    · rw [letGoBy, List.filterMap_eq_nil_iff]
      intro e he
      cases e <;> simp [Event.naming] at h ⊢
      exact absurd (h _ he) (by simp)
    · rw [closedBy, List.filterMap_eq_nil_iff]
      intro e he
      cases e <;> simp [Event.naming] at h ⊢
      exact absurd (h _ he) (by simp)
  rw [boundTimes_append, letGoBy_append, closedBy_append, hes.1, hes.2.1, hes.2.2]
  exact ⟨rfl, List.append_nil _, List.append_nil _⟩

@[simp] theorem count_letGoBy_letGo (c c' : Context) (r r' : Resource) :
    (letGoBy [.letGo c' r'] r).count c = if c' = c ∧ r' = r then 1 else 0 := by
  by_cases hr : r' = r
  · simp [letGoBy, hr, List.count_singleton]
  · simp [letGoBy, hr]

@[simp] theorem count_closedBy_closed (c c' : Context) (r r' : Resource) :
    (closedBy [.closed c' r'] r).count c = if c' = c ∧ r' = r then 1 else 0 := by
  by_cases hr : r' = r
  · simp [closedBy, hr, List.count_singleton]
  · simp [closedBy, hr]

@[simp] theorem letGoBy_closed (c : Context) (r r' : Resource) :
    letGoBy [.closed c r'] r = [] := rfl

@[simp] theorem closedBy_letGo (c : Context) (r r' : Resource) :
    closedBy [.letGo c r'] r = [] := rfl

/-! ## Draining the shared array -/

/-- Moving the last entry into the place of one that goes keeps the others. -/
theorem exists_swapRemove {α : Type*} (l r : List α) (x : α) :
    ∃ r', ((l ++ x :: r).set l.length ((l ++ x :: r).getLastD x)).dropLast = l ++ r' ∧
      r'.Perm r := by
  rcases List.eq_nil_or_concat r with rfl | ⟨r, y, rfl⟩
  · -- it is the last entry itself, and nothing moves
    exact ⟨[], by simp, List.Perm.refl _⟩
  · refine ⟨y :: r, ?_, ?_⟩
    · rw [List.concat_eq_append, ← List.cons_append, ← List.append_assoc, List.getLastD_concat]
      have : (l ++ x :: r ++ [y]).set l.length y = (l ++ y :: r) ++ [y] := by simp
      rw [this, List.dropLast_concat]
    · rw [List.concat_eq_append]
      exact (List.perm_append_singleton y r).symm

namespace PortState

/-- The loop takes out this context's entries from its position on, and leaves the others. -/
theorem takeSettlingLoop_perm (me : Context) (fuel : ℕ) (l r : List Settling) (mine : List Desc)
    (hl : ∀ s ∈ l, s.owner ≠ me) (hfuel : r.length ≤ fuel) :
    (takeSettlingLoop me fuel l.length (l ++ r) mine).1.Perm
        (mine ++ (r.filter fun s => s.owner = me).map Settling.d) ∧
      (takeSettlingLoop me fuel l.length (l ++ r) mine).2.Perm
        (l ++ r.filter fun s => s.owner ≠ me) := by
  -- Induction on the turns left: before the position `l.length` nothing is this context's, and what
  -- is behind it is no longer than the turns.
  induction fuel generalizing l r mine with
  | zero =>
    obtain rfl : r = [] := List.eq_nil_of_length_eq_zero (by omega)
    simp [takeSettlingLoop]
  | succ fuel ih =>
    cases r with
    | nil => simp [takeSettlingLoop]
    | cons s r =>
      simp only [List.length_cons] at hfuel
      have hget : (l ++ s :: r)[l.length]? = some s := by simp
      simp only [takeSettlingLoop, hget]
      split_ifs with hs
      · -- another context's entry stays
        have hl' : ∀ t ∈ l ++ [s], t.owner ≠ me := by
          intro t ht
          rcases List.mem_append.mp ht with ht | ht
          · exact hl t ht
          · rwa [List.mem_singleton.mp ht]
        have := ih (l ++ [s]) r mine hl' (by omega)
        simpa [hs] using this
      · -- this context's is taken out, and the last entry moved into its place
        have hown : s.owner = me := not_not.mp hs
        obtain ⟨r', hr', hperm⟩ := exists_swapRemove l r s
        rw [hr']
        have hlen : r'.length ≤ fuel := by
          rw [hperm.length_eq]
          omega
        obtain ⟨h₁, h₂⟩ := ih l r' (mine ++ [s.d]) hl hlen
        refine ⟨h₁.trans ?_, h₂.trans ?_⟩
        · simp only [List.append_assoc, List.singleton_append]
          refine List.Perm.append_left mine ?_
          have := (hperm.filter fun t => decide (t.owner = me)).map Settling.d
          simpa [hown] using this
        · refine List.Perm.append_left l ?_
          have := hperm.filter fun t => decide (t.owner ≠ me)
          simpa [hown] using this

/-- **What is taken out is what this context let go of, and the rest stays.** -/
theorem takeSettling_perm (w : PortState) (me : Context) :
    (w.takeSettling me).1.Perm ((w.settling.filter fun s => s.owner = me).map Settling.d) ∧
      (w.takeSettling me).2.settling.Perm (w.settling.filter fun s => s.owner ≠ me) := by
  have := takeSettlingLoop_perm me w.settling.length [] w.settling [] (by simp) le_rfl
  simpa [takeSettling] using this

/-- The context that owns every entry takes them all. -/
theorem takeSettling_of_owned {w : PortState} {me : Context}
    (h : ∀ s ∈ w.settling, s.owner = me) :
    (w.takeSettling me).1.Perm (w.settling.map Settling.d) ∧
      (w.takeSettling me).2.settling = [] := by
  obtain ⟨hmine, hrest⟩ := takeSettling_perm w me
  have hall : (w.settling.filter fun s => s.owner = me) = w.settling :=
    List.filter_eq_self.mpr fun s hs => by simpa using h s hs
  have hnone : (w.settling.filter fun s => s.owner ≠ me) = [] :=
    List.filter_eq_nil_iff.mpr fun s hs => by simpa using h s hs
  rw [hall] at hmine
  rw [hnone] at hrest
  exact ⟨hmine, hrest.eq_nil⟩

/-! ## What was bound is held or was let go -/

/-- The resource each description owns. -/
def owns (w : PortState) (d : Fin okmMaxDesc) : Option Resource := (w.desc d).owned

/-- Every time a resource was bound, it is held by a description or was let go. -/
def Held (w : PortState) : Prop :=
  ∀ r, boundTimes w.log r = occ w.owns r + (letGoBy w.log r).length

theorem Held.congr {w w' : PortState} (h : w.Held) (howns : w'.owns = w.owns)
    (hbound : ∀ r, boundTimes w'.log r = boundTimes w.log r)
    (hletGo : ∀ r, (letGoBy w'.log r).length = (letGoBy w.log r).length) : w'.Held := by
  intro r
  rw [howns, hbound, hletGo]
  exact h r

/-- Events that neither bind nor let go. -/
theorem Held.record {w : PortState} (h : w.Held) {e : Event}
    (hbound : ∀ r, boundTimes [e] r = 0) (hletGo : ∀ r, letGoBy [e] r = []) :
    (w.record e).Held := by
  refine h.congr rfl (fun r => ?_) fun r => ?_
  · rw [record_log, boundTimes_append, hbound]
    rfl
  · rw [record_log, letGoBy_append, hletGo, List.append_nil]

theorem owns_setDesc (w : PortState) (d : Fin okmMaxDesc) (p : Desc) :
    (w.setDesc d p).owns = Function.update w.owns d p.owned := by
  funext e
  by_cases he : e = d
  · subst he
    simp [owns, setDesc_desc]
  · simp [owns, setDesc_desc, he]

/-- A description that owned nothing is bound. -/
theorem Held.bindDesc {w : PortState} (h : w.Held) {d : Fin okmMaxDesc} (hd : w.owns d = none)
    (p : Desc) : (w.bindDesc d p).Held := by
  intro r
  have hheld := h r
  have hocc := occ_update w.owns d p.owned r
  have howns : (w.bindDesc d p).owns = Function.update w.owns d p.owned := owns_setDesc w d p
  have hlog : (w.bindDesc d p).log = w.log ++ [.bound d p.owned] := rfl
  -- one more binding, and one more owner
  have hone : boundTimes [.bound d p.owned] r = if p.owned = some r then 1 else 0 := by
    simp [boundTimes, List.countP_singleton]
  simp only [hd, reduceCtorEq, if_false, add_zero] at hocc
  rw [howns, hlog, boundTimes_append, letGoBy_append, hone, hocc, List.length_append]
  have hnone : letGoBy [.bound d p.owned] r = [] := rfl
  rw [hnone, List.length_nil]
  omega

/-- Closing, now or later, neither binds nor lets go. -/
theorem settle_ledger (w : PortState) (me : Context) (p : Desc) (r : Resource) :
    boundTimes (w.settle me p).log r = boundTimes w.log r ∧
      letGoBy (w.settle me p).log r = letGoBy w.log r := by
  -- a closing is no letting go, and `closeOwned` logs closings only
  have hclosed : boundTimes (w.closeOwned me p).log r = boundTimes w.log r ∧
      letGoBy (w.closeOwned me p).log r = letGoBy w.log r := by
    refine closeOwned_keeps (I := fun x => boundTimes x.log r = boundTimes w.log r ∧
      letGoBy x.log r = letGoBy w.log r) (fun x r' hx => ?_) (fun _ _ hx => hx) p ⟨rfl, rfl⟩
    rw [record_log, boundTimes_append, letGoBy_append, letGoBy_closed, List.append_nil]
    exact hx
  unfold settle
  split_ifs
  · exact hclosed
  · exact ⟨rfl, rfl⟩
  · exact hclosed
  · exact ⟨rfl, rfl⟩

/-- What a description owned is recorded as let go. -/
theorem letGo_ledger (w : PortState) (me : Context) (p : Desc) (r : Resource) :
    boundTimes (w.letGo me p).log r = boundTimes w.log r ∧
      (letGoBy (w.letGo me p).log r).length =
        (letGoBy w.log r).length + if p.owned = some r then 1 else 0 := by
  obtain ⟨hbound, hlet⟩ := settle_ledger (w.noteLetGo me p) me p r
  unfold PortState.letGo
  rw [hbound, hlet]
  unfold noteLetGo
  cases p.owned with
  | none => simp
  | some r' =>
    simp only [record_log, boundTimes_append, letGoBy_append, List.length_append]
    refine ⟨rfl, ?_⟩
    by_cases hr : r' = r <;> simp [letGoBy, hr]

/-! ## The events about names -/

theorem pathSlotClear_naming (w : PortState) (slot : Fin okmMaxDirs) :
    ∃ es, (w.pathSlotClear slot).log = w.log ++ es ∧ ∀ e ∈ es, e.naming = true := by
  unfold pathSlotClear okmKalFree
  cases w.dirlong slot with
  | none => exact ⟨[], by simp⟩
  | some l =>
    simp only
    split_ifs
    · exact ⟨[], by simp⟩
    · exact ⟨[_], rfl, by simp [Event.naming]⟩

theorem dropName_naming (w : PortState) (p : Desc) :
    ∃ es, (w.dropName p).log = w.log ++ es ∧ ∀ e ∈ es, e.naming = true := by
  unfold dropName
  cases p.pathSlot with
  | none => exact ⟨[], by simp⟩
  | some slot => exact pathSlotClear_naming w slot

theorem keepName_naming (w : PortState) (slot : Fin okmMaxDirs) (abs : Text) (alloc : Option ℕ) :
    ∃ es, (w.keepName slot abs alloc).log = w.log ++ es ∧ ∀ e ∈ es, e.naming = true := by
  obtain ⟨es, hes, hall⟩ := pathSlotClear_naming w slot
  unfold keepName writeName
  split_ifs
  · exact ⟨es, hes, hall⟩
  · cases alloc with
    | none => exact ⟨es, hes, hall⟩
    | some addr =>
      refine ⟨es ++ [_], by rw [← List.append_assoc, ← hes]; rfl, ?_⟩
      intro e he
      rcases List.mem_append.mp he with he | he
      · exact hall e he
      · rw [List.mem_singleton.mp he]
        rfl

theorem okmDirRemember_naming (w : PortState) (fd : Int) (abs : Text) (alloc : Option ℕ) :
    ∃ es, (w.okmDirRemember fd abs alloc).log = w.log ++ es ∧ ∀ e ∈ es, e.naming = true := by
  have hkeep : ∀ (v : PortState) d slot, v.log = w.log →
      ∃ es, ((v.keepName slot abs alloc).record (.named d abs)).log = w.log ++ es ∧
        ∀ e ∈ es, e.naming = true := by
    intro v d slot hv
    obtain ⟨es, hes, hall⟩ := keepName_naming v slot abs alloc
    refine ⟨es ++ [.named d abs], by rw [record_log, hes, hv, List.append_assoc], ?_⟩
    intro e he
    rcases List.mem_append.mp he with he | he
    · exact hall e he
    · rw [List.mem_singleton.mp he]
      rfl
  rcases w.okmDirRemember_cases fd abs alloc with
    he | ⟨d, -, ⟨slot, -, he⟩ | ⟨-, he | ⟨slot, -, he⟩⟩⟩
  · exact ⟨[], by simp [he]⟩
  · rw [he]
    exact hkeep w d slot rfl
  · exact ⟨[.named d abs], by rw [he, record_log], by simp [Event.naming]⟩
  · rw [he]
    exact hkeep _ d slot rfl

theorem okmDirRemember_settling (w : PortState) (fd : Int) (abs : Text) (alloc : Option ℕ) :
    (w.okmDirRemember fd abs alloc).settling = w.settling := by
  rcases w.okmDirRemember_cases fd abs alloc with
    he | ⟨d, -, ⟨slot, -, he⟩ | ⟨-, he | ⟨slot, -, he⟩⟩⟩
  · rw [he]
  · simp [he]
  · simp [he]
  · simp [he, takePathSlot]

/-! ## Held resources along the operations -/

theorem Held.descRelease {w : PortState} (h : w.Held) (me : Context) (d : Fin okmMaxDesc) :
    (w.descRelease me d).Held := by
  unfold PortState.descRelease
  simp only
  split_ifs
  · -- another descriptor still names it
    refine h.congr ?_ (fun _ => rfl) fun _ => rfl
    rw [owns_setDesc]
    exact Function.update_eq_self_iff.mpr rfl
  · intro r
    have hheld := h r
    -- the last one: what it owned has one owner less, and is let go once
    have hocc := occ_update w.owns d none r
    have hlet := letGo_ledger w me { w.desc d with refs := (w.desc d).refs - 1 } r
    obtain ⟨es, hes, hall⟩ := dropName_naming
      (w.letGo me { w.desc d with refs := (w.desc d).refs - 1 })
      { w.desc d with refs := (w.desc d).refs - 1 }
    obtain ⟨hb, hl, -⟩ := naming_ledger hall
      (w.letGo me { w.desc d with refs := (w.desc d).refs - 1 }).log r
    have howns : ∀ v : PortState, v.desc = w.desc → v.owns = w.owns := by
      intro v hv
      funext e
      rw [owns, owns, hv]
    rw [owns_setDesc, howns _ (by simp), setDesc_log, hes, hb, hl, hlet.1, hlet.2]
    have hfree : (Desc.released { w.desc d with refs := (w.desc d).refs - 1 }).owned = none := rfl
    have hsame : ({ w.desc d with refs := (w.desc d).refs - 1 } : Desc).owned = w.owns d := rfl
    rw [hfree, hsame]
    simp only [reduceCtorEq, if_false, add_zero] at hocc
    omega

theorem Held.setFd {w : PortState} (h : w.Held) (f : Fin okmMaxFd) (t : FdSlot) :
    (w.setFd f t).Held := h.congr rfl (fun _ => rfl) fun _ => rfl

theorem Held.vacate {w : PortState} (h : w.Held) (me : Context) (f : Fin okmMaxFd) :
    (w.vacate me f).Held := by
  unfold PortState.vacate
  split
  · exact h.descRelease me _
  · exact h

theorem Held.setDesc {w : PortState} (h : w.Held) {d : Fin okmMaxDesc} {p : Desc}
    (hp : p.owned = (w.desc d).owned) : (w.setDesc d p).Held := by
  refine h.congr ?_ (fun _ => rfl) fun _ => rfl
  rw [owns_setDesc]
  exact Function.update_eq_self_iff.mpr hp

theorem Exact.owns_descAlloc {w : PortState} (h : w.Exact) {d : Fin okmMaxDesc}
    (hd : w.descAlloc = some d) : w.owns d = none := by
  have hfree := (h d).2.mpr (h.occ_descAlloc hd)
  simp [owns, Desc.owned, hfree]

theorem held_rules (me : Context) : OpRules me fun w => w.Exact ∧ w.Held where
  bind := fun w fd kind stream file dir flags hk h => by
    refine ⟨(exact_rules me).bind w fd kind stream file dir flags hk h.1, ?_⟩
    rcases w.okmFdBind_cases me fd kind stream file dir flags with heq | ⟨f, d, -, hd, heq⟩
    · rw [heq]
      exact h.2
    · rw [heq]
      exact ((h.2.bindDesc (h.1.owns_descAlloc hd) _).vacate me f).setFd f _
  dup := fun w fd newfd cloexec h => by
    refine ⟨(exact_rules me).dup w fd newfd cloexec h.1, ?_⟩
    rcases w.okmFdDup_cases me fd newfd cloexec with heq | ⟨f, n, d, -, -, heq⟩
    · rw [heq]
      exact h.2
    · have hadd : ((w.vacate me n).addRef d).Held := (h.2.vacate me n).setDesc rfl
      rw [heq]
      exact hadd.setFd n _
  release := fun w fd h => by
    refine ⟨(exact_rules me).release w fd h.1, ?_⟩
    rcases w.okmFdRelease_cases me fd with heq | ⟨f, d, -, heq⟩
    · rw [heq]
      exact h.2
    · rw [heq]
      exact (h.2.setFd f {}).descRelease me d
  cloexec := fun w fd on h => by
    refine ⟨(exact_rules me).cloexec w fd on h.1, ?_⟩
    rcases w.okmFdCloexec_cases fd on with heq | ⟨f, d, -, heq⟩
    · rw [heq]
      exact h.2
    · rw [heq]
      exact h.2.setFd f _
  -- a name kept or dropped logs only events about names
  remember := fun w fd abs alloc halloc h => by
    refine ⟨(exact_rules me).remember w fd abs alloc halloc h.1, ?_⟩
    obtain ⟨es, hes, hall⟩ := okmDirRemember_naming w fd abs alloc
    refine h.2.congr ?_ (fun r => ?_) fun r => ?_
    · funext d
      obtain ⟨slot, hd⟩ := okmDirRemember_desc w fd abs alloc d
      simp only [owns, hd]
      rfl
    · rw [hes, (naming_ledger hall w.log r).1]
    · rw [hes, (naming_ledger hall w.log r).2.1]
  sock := fun w t h => ⟨(exact_rules me).sock w t h.1, h.2.congr rfl (fun _ => rfl) fun _ => rfl⟩
  descSock := fun w d slot h => ⟨(exact_rules me).descSock w d slot h.1, h.2.setDesc rfl⟩
  returned := fun _ _ h => ⟨h.1, h.2.record (fun _ => rfl) fun _ => rfl⟩

theorem held_okmTableInitMemory (start : Start) : (okmTableInitMemory start).Held := by
  intro r
  have hocc : occ (okmTableInitMemory start).owns r = 0 := by
    rw [occ_eq_zero_iff]
    intro d
    simp [owns, okmTableInitMemory, Desc.owned]
  rw [hocc]
  rfl

/-! ## What a context let go of it has closed, or has still to close -/

/-- The entries of the shared array that a context has to close, for one resource. -/
def waiting (l : List Settling) (c : Context) (r : Resource) : ℕ :=
  l.countP fun s => s.owner = c ∧ s.d.owned = some r

/-- What each context let go of, it has closed, or it waits in the shared array, or among the
`mine` the context has taken out. -/
def Balanced (mine : Context → Resource → ℕ) (w : PortState) : Prop :=
  ∀ c r, r.settles = true → (letGoBy w.log r).count c =
    (closedBy w.log r).count c + waiting w.settling c r + mine c r

theorem Balanced.congr {mine : Context → Resource → ℕ} {w w' : PortState} (h : w.Balanced mine)
    (hsettling : w'.settling = w.settling) (hletGo : ∀ r, letGoBy w'.log r = letGoBy w.log r)
    (hclosed : ∀ r, r.settles = true → closedBy w'.log r = closedBy w.log r) :
    w'.Balanced mine := by
  intro c r hr
  rw [hsettling, hletGo, hclosed r hr]
  exact h c r hr

theorem Balanced.closedOther {mine : Context → Resource → ℕ} {w : PortState} (h : w.Balanced mine)
    (me : Context) {r : Resource} (hr : r.settles = false) :
    (w.record (.closed me r)).Balanced mine := by
  refine h.congr rfl (fun r' => ?_) fun r' hr' => ?_
  · rw [record_log, letGoBy_append, letGoBy_closed, List.append_nil]
  · -- a connection or a listener is not counted here
    have hne : ¬ r = r' := by
      rintro rfl
      rw [hr] at hr'
      cases hr'
    rw [record_log, closedBy_append]
    simp [closedBy, hne]

/-- Closing what a description owns closes one resource, or only a socket's. -/
theorem closeOwned_of_owned {p : Desc} {r : Resource} (hp : p.owned = some r) (w : PortState)
    (me : Context) : w.closeOwned me p = w.record (.closed me r) := by
  unfold Desc.owned at hp
  unfold closeOwned
  split at hp <;> simp_all

theorem Balanced.closeOwned_of_none {mine : Context → Resource → ℕ} {w : PortState}
    (h : w.Balanced mine) (me : Context) {p : Desc} (hp : p.owned = none) :
    (w.closeOwned me p).Balanced mine := by
  unfold Desc.owned at hp
  unfold closeOwned
  split at hp
  · cases hp
  · cases hp
  · cases hp
  · split
    · simp_all
    · simp_all
    · simp_all
    · -- a socket closes what its slot holds
      exact okmSockRelease_keeps (fun _ _ hr hw => hw.closedOther me hr)
        (fun _ _ hw => hw.congr rfl (fun _ => rfl) fun _ _ => rfl) _ h
    · exact h

/-- **Letting go** keeps the balance: what is let go is closed or waits. -/
theorem Balanced.letGo {mine : Context → Resource → ℕ} {w : PortState} (h : w.Balanced mine)
    (me : Context) (p : Desc) : (w.letGo me p).Balanced mine := by
  unfold PortState.letGo noteLetGo
  cases hp : p.owned with
  | none =>
    simp only
    unfold settle
    -- what owns none of the three kinds never waits
    have hkind : ¬ (p.kind ≠ .socket ∧ p.kind ≠ .stream ∧ p.kind ≠ .free ∧ p.kind ≠ .null) := by
      unfold Desc.owned at hp
      cases hk : p.kind <;> simp_all
    split_ifs with h₁ h₂ h₃
    · exact h.closeOwned_of_none me hp
    · exact absurd ⟨h₁, h₂⟩ hkind
    · exact absurd ⟨h₁, h₂⟩ hkind
    · exact h
  | some r₀ =>
    simp only
    -- a file, a directory or a channel end is settled, not closed here
    have hkind : p.kind ≠ .socket ∧ p.kind ≠ .stream ∧ p.kind ≠ .free ∧ p.kind ≠ .null := by
      unfold Desc.owned at hp
      cases hk : p.kind <;> simp_all
    unfold settle
    rw [if_neg hkind.1, if_pos hkind.2]
    split_ifs
    · -- it waits in the shared array
      intro c r hr
      have hbal := h c r hr
      have hwait : waiting (w.settling ++ [⟨me, p⟩]) c r =
          waiting w.settling c r + if me = c ∧ r₀ = r then 1 else 0 := by
        simp [waiting, List.countP_append, List.countP_singleton, hp]
      simp only [record_log, record_settling, letGoBy_append, closedBy_append, closedBy_letGo,
        List.append_nil, List.count_append, count_letGoBy_letGo, hwait]
      omega
    · -- no place is left, and it is closed at once
      rw [closeOwned_of_owned hp]
      intro c r hr
      have hbal := h c r hr
      simp only [record_log, record_settling, letGoBy_append, closedBy_append, closedBy_letGo,
        letGoBy_closed, List.append_nil, List.count_append, count_letGoBy_letGo,
        count_closedBy_closed]
      omega

/-- The shared array has only entries of this context. -/
def OwnedBy (me : Context) (w : PortState) : Prop := ∀ s ∈ w.settling, s.owner = me

theorem OwnedBy.letGo {me : Context} {w : PortState} (h : w.OwnedBy me) (p : Desc) :
    (w.letGo me p).OwnedBy me := by
  have hnote : (w.noteLetGo me p).settling = w.settling := by
    unfold noteLetGo
    split <;> rfl
  unfold PortState.letGo settle OwnedBy
  split_ifs
  · rwa [closeOwned_settling, hnote]
  · -- the entry added is this context's
    intro s hs
    rw [hnote] at hs
    rcases List.mem_append.mp hs with hs | hs
    · exact h s hs
    · rw [List.mem_singleton.mp hs]
  · rwa [closeOwned_settling, hnote]
  · rwa [hnote]

/-- The balance, in a table whose shared array is this context's. -/
def Settled (me : Context) (mine : Context → Resource → ℕ) (w : PortState) : Prop :=
  w.Balanced mine ∧ w.OwnedBy me

section Settled

variable {me : Context} {mine : Context → Resource → ℕ} {w : PortState}

theorem Settled.congr {w' : PortState} (h : w.Settled me mine)
    (hsettling : w'.settling = w.settling) (hletGo : ∀ r, letGoBy w'.log r = letGoBy w.log r)
    (hclosed : ∀ r, r.settles = true → closedBy w'.log r = closedBy w.log r) :
    w'.Settled me mine := by
  refine ⟨h.1.congr hsettling hletGo hclosed, ?_⟩
  unfold OwnedBy
  rw [hsettling]
  exact h.2

theorem Settled.record (h : w.Settled me mine) {e : Event} (hletGo : ∀ r, letGoBy [e] r = [])
    (hclosed : ∀ r, closedBy [e] r = []) : (w.record e).Settled me mine := by
  refine h.congr rfl (fun r => ?_) fun r _ => ?_
  · rw [record_log, letGoBy_append, hletGo, List.append_nil]
  · rw [record_log, closedBy_append, hclosed, List.append_nil]

/-- Events about names leave the balance as it is. -/
theorem Settled.append {w' : PortState} (h : w.Settled me mine) {es : List Event}
    (hsettling : w'.settling = w.settling) (hlog : w'.log = w.log ++ es)
    (hes : ∀ e ∈ es, e.naming = true) : w'.Settled me mine := by
  refine h.congr hsettling (fun r => ?_) fun r _ => ?_
  · rw [hlog, (naming_ledger hes w.log r).2.1]
  · rw [hlog, (naming_ledger hes w.log r).2.2]

theorem Settled.bindDesc (h : w.Settled me mine) (d : Fin okmMaxDesc) (p : Desc) :
    (w.bindDesc d p).Settled me mine := by
  have hset : (w.setDesc d p).Settled me mine := h.congr rfl (fun _ => rfl) fun _ _ => rfl
  exact hset.record (fun _ => rfl) fun _ => rfl

theorem Settled.descRelease (h : w.Settled me mine) (d : Fin okmMaxDesc) :
    (w.descRelease me d).Settled me mine := by
  unfold PortState.descRelease
  simp only
  split_ifs
  · exact h.congr rfl (fun _ => rfl) fun _ _ => rfl
  · have hlet : (w.letGo me { w.desc d with refs := (w.desc d).refs - 1 }).Settled me mine :=
      ⟨h.1.letGo me _, h.2.letGo _⟩
    obtain ⟨es, hes, hall⟩ := dropName_naming
      (w.letGo me { w.desc d with refs := (w.desc d).refs - 1 })
      { w.desc d with refs := (w.desc d).refs - 1 }
    exact hlet.append (by simp) hes hall

theorem Settled.vacate (h : w.Settled me mine) (f : Fin okmMaxFd) :
    (w.vacate me f).Settled me mine := by
  unfold PortState.vacate
  split
  · exact h.descRelease _
  · exact h

end Settled

theorem settled_rules (me : Context) (mine : Context → Resource → ℕ) :
    OpRules me (Settled me mine) where
  bind := fun w fd kind stream file dir flags _ h => by
    rcases w.okmFdBind_cases me fd kind stream file dir flags with heq | ⟨f, d, -, -, heq⟩
    · rwa [heq]
    · rw [heq]
      exact ((h.bindDesc d _).vacate f).congr rfl (fun _ => rfl) fun _ _ => rfl
  dup := fun w fd newfd cloexec h => by
    rcases w.okmFdDup_cases me fd newfd cloexec with heq | ⟨f, n, d, -, -, heq⟩
    · rwa [heq]
    · rw [heq]
      exact (h.vacate n).congr rfl (fun _ => rfl) fun _ _ => rfl
  release := fun w fd h => by
    rcases w.okmFdRelease_cases me fd with heq | ⟨f, d, -, heq⟩
    · rwa [heq]
    · have hset : (w.setFd f {}).Settled me mine := h.congr rfl (fun _ => rfl) fun _ _ => rfl
      rw [heq]
      exact hset.descRelease d
  cloexec := fun w fd on h => by
    rcases w.okmFdCloexec_cases fd on with heq | ⟨f, d, -, heq⟩
    · rwa [heq]
    · rw [heq]
      exact h.congr rfl (fun _ => rfl) fun _ _ => rfl
  remember := fun w fd abs alloc _ h => by
    obtain ⟨es, hes, hall⟩ := okmDirRemember_naming w fd abs alloc
    exact h.append (okmDirRemember_settling w fd abs alloc) hes hall
  sock := fun _ _ h => h.congr rfl (fun _ => rfl) fun _ _ => rfl
  descSock := fun _ _ _ h => h.congr rfl (fun _ => rfl) fun _ _ => rfl
  returned := fun _ _ h => h.record (fun _ => rfl) fun _ => rfl

/-- A bind upon a free descriptor lets nothing go, and writes no other descriptor. -/
theorem okmFdBind_of_free {w : PortState} {fd : Int} {f : Fin okmMaxFd} (hf : fdIndex fd = some f)
    (hfree : (w.fd f).desc = none) (me : Context) (kind : Kind) (stream file dir : Handle)
    (flags : ℕ) :
    (w.okmFdBind me fd kind stream file dir flags).1.settling = w.settling ∧
      ∀ g, g ≠ f → (w.okmFdBind me fd kind stream file dir flags).1.fd g = w.fd g := by
  rcases w.okmFdBind_cases me fd kind stream file dir flags with heq | ⟨f', d, hf', -, heq⟩
  · rw [heq]
    exact ⟨rfl, fun _ _ => rfl⟩
  · obtain rfl : f = f' := Option.some.inj (hf.symm.trans hf')
    have hvac : (w.bindDesc d ((w.desc d).bind kind stream file dir flags)).vacate me f =
        w.bindDesc d ((w.desc d).bind kind stream file dir flags) := by
      unfold PortState.vacate
      simp [PortState.bindDesc, hfree]
    rw [heq, hvac]
    exact ⟨rfl, fun g hg => Function.update_of_ne hg _ _⟩

theorem okmTableInit_settling (me : Context) (start : Start) :
    (okmTableInit me start).settling = [] := by
  have f₀ : fdIndex 0 = some ⟨0, by decide⟩ := by decide
  have f₁ : fdIndex 1 = some ⟨1, by decide⟩ := by decide
  have f₂ : fdIndex 2 = some ⟨2, by decide⟩ := by decide
  -- each of the three descriptors is free as it is bound: the ones before it were other numbers
  have h₀ := okmFdBind_of_free (w := { okmTableInitMemory start with stdStream := start.streams })
    f₀ rfl me .stream (start.streams 0) 0 0 oRdonly
  have h₁ := okmFdBind_of_free f₁ ((congrArg FdSlot.desc (h₀.2 _ (by decide))).trans rfl) me
    .stream (start.streams 1) 0 0 oWronly
  have h₂ := okmFdBind_of_free f₂ ((congrArg FdSlot.desc
    ((h₁.2 _ (by decide)).trans (h₀.2 _ (by decide)))).trans rfl) me
    .stream (start.streams 2) 0 0 oWronly
  have hsettling : ((okmTableInitMemory start).bindStreams me start.streams).settling = [] := by
    unfold bindStreams
    simp only
    rw [h₂.1, h₁.1, h₀.1]
    rfl
  unfold okmTableInit okmTableInitStreams
  simp only
  split
  · rw [hsettling]
  · rw [hsettling]

end PortState

/-! ## Contexts over one table -/

/-- What a context has taken out and not yet closed. -/
def Phase.mine : Phase → List Desc
  | .closing mine => mine
  | _ => []

namespace System

open PortState

/-- How much of a resource a context has taken out and not yet closed. -/
def mineCount (s : System) (c : Context) (r : Resource) : ℕ :=
  (s.phase c).mine.countP fun p => p.owned = some r

/-- The holder is the one context in a holding, the shared array is the holder's, and every
context's letting go is balanced. -/
structure SettlingInv (s : System) : Prop where
  holding : ∀ c, s.phase c = .holding ↔ s.holder = some c
  owned : ∀ x ∈ s.port.settling, s.holder = some x.owner
  balance : s.port.Balanced s.mineCount

theorem SettlingInv.settling_eq_nil {s : System} (h : s.SettlingInv) (hfree : s.holder = none) :
    s.port.settling = [] := by
  refine List.eq_nil_iff_forall_not_mem.mpr fun x hx => ?_
  have := h.owned x hx
  rw [hfree] at this
  cases this

theorem settlingInv_start (me : Context) (start : Start) : (System.start me start).SettlingInv := by
  refine ⟨fun c => by simp [System.start], ?_, ?_⟩
  · intro x hx
    simp only [System.start, okmTableInit_settling] at hx
    cases hx
  · have hinit : (okmTableInit me start).Settled me fun _ _ => 0 := by
      refine (settled_rules me _).okmTableInit start ⟨fun c r _ => rfl, fun x hx => ?_⟩ ?_
      · cases hx
      · exact fun _ _ _ _ _ h => h.congr rfl (fun _ => rfl) fun _ _ => rfl
    exact hinit.1

@[simp] theorem setPhase_port (s : System) (c : Context) (ph : Phase) :
    (s.setPhase c ph).port = s.port := rfl

theorem mineCount_setPhase (s : System) (c c' : Context) (ph : Phase) (r : Resource) :
    (s.setPhase c ph).mineCount c' r =
      if c' = c then ph.mine.countP fun p => p.owned = some r else s.mineCount c' r := by
  by_cases hc : c' = c
  · subst hc
    simp [mineCount, setPhase]
  · simp [mineCount, setPhase, hc]

/-- A step that leaves the context's own list as it was. -/
theorem mineCount_setPhase_of_mine (s : System) {c : Context} {ph : Phase}
    (hph : ph.mine = (s.phase c).mine) : (s.setPhase c ph).mineCount = s.mineCount := by
  funext c' r
  rw [mineCount_setPhase, hph]
  split_ifs with hc
  · rw [hc, mineCount]
  · rfl

/-- No second context is inside the lock. -/
theorem SettlingInv.holder_unique {s : System} (h : s.SettlingInv) {c : Context}
    (hc : s.phase c = .holding) {c' : Context} (hne : c' ≠ c) : s.phase c' ≠ .holding := by
  intro hc'
  have := ((h.holding c).mp hc).symm.trans ((h.holding c').mp hc')
  exact hne (Option.some.inj this).symm

theorem settlingInv_lock {s : System} (h : s.SettlingInv) {c : Context} (hfree : s.holder = none)
    (hc : s.phase c = .idle) : (({ s with holder := some c }).setPhase c .holding).SettlingInv := by
  have hnil := h.settling_eq_nil hfree
  refine ⟨fun c' => ?_, ?_, ?_⟩
  · by_cases hcc : c' = c
    · subst hcc
      simp [setPhase]
    · have hne : ¬ c = c' := fun he => hcc he.symm
      simpa [setPhase, hcc, hne, hfree] using (h.holding c')
  · -- the array is empty, since nobody held the lock
    intro x hx
    have hx' : x ∈ s.port.settling := hx
    rw [hnil] at hx'
    cases hx'
  · rw [mineCount_setPhase_of_mine _ (by simp [hc, Phase.mine])]
    exact h.balance

theorem settlingInv_op {s : System} (h : s.SettlingInv) {c : Context} (hc : s.phase c = .holding)
    {op : Op} (hop : op.Answered s.port) :
    ({ s with port := op.apply c s.port } : System).SettlingInv := by
  have hholder := (h.holding c).mp hc
  -- all that waits is this context's, which is what the operations keep
  have hset : (op.apply c s.port).Settled c s.mineCount := by
    refine (settled_rules c s.mineCount).apply op hop ⟨h.balance, fun x hx => ?_⟩
    exact (Option.some.inj (hholder.symm.trans (h.owned x hx))).symm
  refine ⟨h.holding, fun x hx => ?_, hset.1⟩
  rw [hset.2 x hx]
  exact hholder

/-- **Releasing the lock** moves what waits into the context's own list, and leaves nothing. -/
theorem settlingInv_unlock {s : System} (h : s.SettlingInv) {c : Context}
    (hc : s.phase c = .holding) : (s.okmUnlock c).SettlingInv := by
  have hholder := (h.holding c).mp hc
  -- whoever holds the lock afterwards, it is not one of the others
  have hother : ∀ c' ph, ph ≠ .holding → ∀ v : PortState,
      ((({ s with port := v, holder := none } : System).setPhase c ph).phase c' = .holding ↔
        (({ s with port := v, holder := none } : System).setPhase c ph).holder = some c') := by
    intro c' ph hph v
    by_cases hcc : c' = c
    · subst hcc
      simp [setPhase, hph]
    · simpa [setPhase, hcc] using h.holder_unique hc hcc
  unfold okmUnlock
  split_ifs with hnil
  · -- nothing waits: the call is over with the lock
    refine ⟨fun c' => hother c' .idle (by simp) s.port, fun x hx => ?_, ?_⟩
    · have hx' : x ∈ s.port.settling := hx
      rw [hnil] at hx'
      cases hx'
    · rw [mineCount_setPhase_of_mine _ (by simp [hc, Phase.mine])]
      exact h.balance
  · have hown : ∀ x ∈ s.port.settling, x.owner = c := fun x hx =>
      (Option.some.inj (hholder.symm.trans (h.owned x hx))).symm
    obtain ⟨hmine, hempty⟩ := takeSettling_of_owned hown
    refine ⟨fun c' => hother c' (.closing _) (by simp) _, fun x hx => ?_, fun c' r hr => ?_⟩
    · have hx' : x ∈ (s.port.takeSettling c).2.settling := hx
      rw [hempty] at hx'
      cases hx'
    · rw [mineCount_setPhase]
      have hbal := h.balance c' r hr
      have hlog : (s.port.takeSettling c).2.log = s.port.log := rfl
      have hsettling : ((({ s with port := (s.port.takeSettling c).2, holder := none } :
          System).setPhase c (.closing (s.port.takeSettling c).1)).port).settling = [] := hempty
      simp only [hsettling]
      simp only [setPhase, hlog]
      split_ifs with hcc
      · subst hcc
        have hzero : s.mineCount c' r = 0 := by simp [mineCount, hc, Phase.mine]
        -- what was taken out is what waited
        have hcount : (Phase.closing (s.port.takeSettling c').1).mine.countP
            (fun p => decide (p.owned = some r)) = waiting s.port.settling c' r := by
          simp only [Phase.mine]
          rw [hmine.countP_eq, List.countP_map, waiting]
          refine List.countP_congr fun x hx => ?_
          simp [hown x hx]
        rw [hcount]
        simp only [waiting, List.countP_nil]
        rw [hzero] at hbal
        simpa [waiting] using hbal
      · -- nothing in the array was another context's, and nothing of theirs moved
        have hzero : waiting s.port.settling c' r = 0 := by
          rw [waiting, List.countP_eq_zero]
          intro x hx
          have hne : ¬ c = c' := fun he => hcc he.symm
          simp [hown x hx, hne]
        have hm : ({ s with port := (s.port.takeSettling c).2, holder := none } :
            System).mineCount c' r = s.mineCount c' r := rfl
        rw [hm]
        rw [hzero] at hbal
        simpa [waiting] using hbal

/-- **Closing** one description moves it from the context's list to what it has closed. -/
theorem settlingInv_close {s : System} (h : s.SettlingInv) {c : Context} {p : Desc}
    {mine : List Desc} (hc : s.phase c = .closing (p :: mine)) :
    (({ s with port := s.port.closeOwned c p }).setPhase c (.closing mine)).SettlingInv := by
  refine ⟨fun c' => ?_, fun x hx => ?_, fun c' r hr => ?_⟩
  · by_cases hcc : c' = c
    · subst hcc
      have := h.holding c'
      simpa [setPhase, hc] using this
    · simpa [setPhase, hcc] using h.holding c'
  · exact h.owned x (by simpa [setPhase] using hx)
  · rw [mineCount_setPhase]
    have hbal := h.balance c' r hr
    change (letGoBy (s.port.closeOwned c p).log r).count c' =
      (closedBy (s.port.closeOwned c p).log r).count c' +
        waiting (s.port.closeOwned c p).settling c' r + _
    rw [closeOwned_settling]
    have hm : ({ s with port := s.port.closeOwned c p } : System).mineCount c' r =
        s.mineCount c' r := rfl
    rw [hm]
    cases hp : p.owned with
    -- a socket: the three kinds are as they were
    | none =>
      have hclose := (h.balance.closeOwned_of_none c hp) c' r hr
      rw [closeOwned_settling] at hclose
      rw [hclose]
      split_ifs with hcc
      · subst hcc
        simp [mineCount, hc, Phase.mine, hp]
      · rfl
    | some r₀ =>
      rw [closeOwned_of_owned hp]
      simp only [record_log, letGoBy_append, closedBy_append, letGoBy_closed, List.append_nil,
        List.count_append, count_closedBy_closed]
      by_cases hcc : c' = c
      · subst hcc
        have hcount : s.mineCount c' r =
            (mine.countP fun p => p.owned = some r) + if r₀ = r then 1 else 0 := by
          simp [mineCount, hc, Phase.mine, hp, List.countP_cons]
        simp only [Phase.mine, true_and, if_true]
        omega
      · -- closed by this context, so no other has closed more
        have hne : ¬ (c = c' ∧ r₀ = r) := fun he => hcc he.1.symm
        rw [if_neg hne, if_neg hcc]
        omega

theorem settlingInv_of_reachable {me : Context} {start : Start} {s : System}
    (h : Reachable step (System.start me start) s) : s.SettlingInv := by
  refine h.invariant (settlingInv_start me start) ?_
  intro s l t hs hl
  cases l with
  | lock c =>
    simp only [step] at hl
    split_ifs at hl with hc
    cases hl
    exact settlingInv_lock hs hc.1 hc.2
  | op c op =>
    simp only [step] at hl
    split_ifs at hl with hc
    cases hl
    exact settlingInv_op hs hc.1 hc.2
  | unlock c =>
    simp only [step] at hl
    split_ifs at hl with hc
    cases hl
    exact settlingInv_unlock hs hc
  | close c =>
    simp only [step] at hl
    split at hl
    · rename_i p mine hc
      cases hl
      exact settlingInv_close hs hc
    · cases hl
  | ret c =>
    simp only [step] at hl
    split_ifs at hl with hc
    cases hl
    refine ⟨fun c' => ?_, hs.owned, ?_⟩
    · by_cases hcc : c' = c
      · subst hcc
        simpa [setPhase, hc] using hs.holding c'
      · simpa [setPhase, hcc] using hs.holding c'
    · rw [mineCount_setPhase_of_mine _ (by simp [hc, Phase.mine])]
      exact hs.balance
  | giveBack c r =>
    cases hl
    have hbal : (s.port.record (.returned c r)).Balanced s.mineCount := by
      refine hs.balance.congr rfl (fun r' => ?_) fun r' _ => ?_
      · rw [record_log, letGoBy_append]
        exact List.append_nil _
      · rw [record_log, closedBy_append]
        exact List.append_nil _
    exact ⟨hs.holding, hs.owned, hbal⟩
  | setfd fd on =>
    cases hl
    rcases s.port.okmFdCloexec_cases fd on with heq | ⟨f, d, -, heq⟩
    · rw [heq]
      exact hs
    · rw [heq]
      exact ⟨hs.holding, hs.owned, hs.balance.congr rfl (fun _ => rfl) fun _ _ => rfl⟩
  | sockCall slot t =>
    simp only [step] at hl
    split_ifs at hl
    cases hl
    exact ⟨hs.holding, hs.owned, hs.balance.congr rfl (fun _ => rfl) fun _ _ => rfl⟩

theorem held_of_reachable {me : Context} {start : Start} {s : System}
    (h : Reachable step (System.start me start) s) : s.port.Held :=
  (port_invariant held_rules
    (fun start => ⟨exact_okmTableInitMemory start, held_okmTableInitMemory start⟩)
    (fun _ _ _ _ _ h => ⟨h.1, h.2.congr rfl (fun _ => rfl) fun _ => rfl⟩)
    (fun _ _ h => ⟨h.1, h.2.congr rfl (fun _ => rfl) fun _ => rfl⟩)
    (fun _ _ _ h => ⟨h.1, h.2.record (fun _ => rfl) fun _ => rfl⟩) h).2

/-- **What a description owns is closed exactly once and by its closer.** In every reachable state
nothing waits in the shared array while the lock is free. A file, directory or channel end has been
let go as often as it was bound and is no longer owned by a description that a descriptor names. No
context has closed it more often than it let it go; a context outside any call has closed it exactly
as often; and when every context is, it has been closed as often as it was bound and is not held. -/
theorem closed_exactly_once {me : Context} {start : Start} {s : System}
    (h : Reachable step (System.start me start) s) :
    (s.holder = none → s.port.settling = []) ∧
    ∀ r, r.settles = true →
      boundTimes s.port.log r =
        (Finset.univ.filter fun d => (s.port.desc d).owned = some r ∧
          ∃ f, (s.port.fd f).desc = some d).card + (letGoBy s.port.log r).length ∧
      (∀ c, (closedBy s.port.log r).count c ≤ (letGoBy s.port.log r).count c) ∧
      (∀ c, s.phase c = .idle →
        (closedBy s.port.log r).count c = (letGoBy s.port.log r).count c) ∧
      ((∀ c, s.phase c = .idle) → (closedBy s.port.log r).Perm (letGoBy s.port.log r)) := by
  have hinv := settlingInv_of_reachable h
  have hexact := exact_of_reachable h
  have hidle : s.holder = none → s.port.settling = [] := hinv.settling_eq_nil
  -- Outside a call a context has nothing waiting in either place.
  have hclosed : ∀ r, r.settles = true → ∀ c, s.phase c = .idle →
      (closedBy s.port.log r).count c = (letGoBy s.port.log r).count c := by
    intro r hr c hc
    have hbal := hinv.balance c r hr
    have hmine : s.mineCount c r = 0 := by simp [mineCount, hc, Phase.mine]
    have hwait : waiting s.port.settling c r = 0 := by
      rw [waiting, List.countP_eq_zero]
      intro x hx
      have hne : x.owner ≠ c := by
        rintro rfl
        have := (hinv.holding x.owner).mpr (hinv.owned x hx)
        rw [hc] at this
        cases this
      simp [hne]
    omega
  refine ⟨hidle, fun r hr => ⟨?_, ?_, hclosed r hr, ?_⟩⟩
  · have hheld : occ s.port.owns r = (Finset.univ.filter fun d =>
        (s.port.desc d).owned = some r ∧ ∃ f, (s.port.fd f).desc = some d).card := by
      refine congrArg Finset.card (Finset.filter_congr fun d _ => ?_)
      refine ⟨fun hd => ⟨hd, ?_⟩, fun hd => hd.1⟩
      -- a description that owns something is in use, so a descriptor names it
      by_contra hnone
      rw [not_exists] at hnone
      have hfree := (hexact d).2.mpr ((occ_eq_zero_iff _ _).mpr hnone)
      simp [owns, Desc.owned, hfree] at hd
    rw [held_of_reachable h r, hheld]
  · intro c
    have := hinv.balance c r hr
    omega
  · intro hall
    exact List.perm_iff_count.mpr fun c => hclosed r hr c (hall c)

theorem closed_exactly_once_file :
    ∃ s, run step (System.start 1 .supplied) [.lock 1, .op 1 (.file 5 6 0), .op 1 (.release 3),
        .unlock 1, .close 1, .ret 1] = some s ∧
      closedBy s.port.log (.file 6) = [1] ∧
      (closedBy s.port.log (.file 6)).count 1 ≤ (letGoBy s.port.log (.file 6)).count 1 := by
  have hrun : (run step (System.start 1 .supplied) [.lock 1, .op 1 (.file 5 6 0),
      .op 1 (.release 3), .unlock 1, .close 1, .ret 1]).map
        (fun s => closedBy s.port.log (.file 6)) = some [1] := by decide +kernel
  obtain ⟨s, hs, hclosed⟩ := Option.map_eq_some_iff.mp hrun
  exact ⟨s, hs, hclosed, ((closed_exactly_once ⟨_, hs⟩).2 (.file 6) rfl).2.1 1⟩

end System

end OpenkalMusl
