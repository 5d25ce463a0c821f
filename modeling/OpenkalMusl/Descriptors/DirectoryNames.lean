import OpenkalMusl.Descriptors.Count

/-!
# The recorded names of directories

A directory's absolute name is kept in one of a bounded number of slots: a short one in the slot
itself, a longer one in memory of its own. A used slot belongs to one description; what it holds is
the name that was recorded when the directory was opened, whole, or nothing; and a long name's
memory is given back once, with the size it was asked for with.

## Main definitions

* `recordedName log d`: the name given for `d` since it was last bound
* `slotOf`: the slot of each description in use
* `kept`: the memory each slot holds
* `NameInv`: the invariant

## Main results

* `nameInv_remember`: recording a name keeps the invariant
* `NameInv.descRelease`: so does releasing a description
* `directory_names`: names are whole or unknown, and their own, in every reachable state
-/

namespace OpenkalMusl

open Transition Occupancy

/-- Events about resources, which are none about names. -/
def Event.ofResource : Event → Bool
  | .letGo _ _ | .closed _ _ | .returned _ _ => true
  | _ => false

/-- The names known after one event. -/
def nameStep (names : Fin okmMaxDesc → Option Text) : Event → Fin okmMaxDesc → Option Text
  | .bound d _ => Function.update names d none
  | .named d name => Function.update names d (some name)
  | _ => names

/-- The name given to be recorded for each description since it was last bound. -/
def recordedName (log : List Event) : Fin okmMaxDesc → Option Text :=
  log.foldl nameStep fun _ => none

theorem recordedName_append (log : List Event) (e : Event) :
    recordedName (log ++ [e]) = nameStep (recordedName log) e := by
  simp [recordedName]

namespace PortState

/-- The slot of each description that is in use. -/
def slotOf (w : PortState) (d : Fin okmMaxDesc) : Option (Fin okmMaxDirs) :=
  if (w.desc d).kind = .free then none else (w.desc d).pathSlot

/-- The memory each slot holds: its address, and the size it will be given back with. -/
def kept (w : PortState) (slot : Fin okmMaxDirs) : Option (ℕ × ℕ) :=
  (w.dirlong slot).map fun l => (l.addr, w.dirlongSize slot)

/-- A used slot belongs to one directory, holds the name that was recorded for it or none, and
what was allocated is what was freed and what slots hold. -/
structure NameInv (w : PortState) : Prop where
  owner : ∀ slot, occ w.slotOf slot = if w.dirpathUsed slot then 1 else 0
  dir : ∀ d slot, w.slotOf d = some slot → (w.desc d).kind = .dir
  empty : ∀ slot, w.dirpathUsed slot = false → w.dirlong slot = none
  name : ∀ d slot, w.slotOf d = some slot →
    w.nameAt slot = none ∨ w.nameAt slot = recordedName w.log d
  own : ∀ slot l, w.dirlong slot = some l → w.okmFromSnapshot l.addr = false
  ledger : ∀ a n, w.log.count (.allocated a n) = w.log.count (.freed a n) + occ w.kept (a, n)

theorem nameAt_congr {w w' : PortState} {slot : Fin okmMaxDirs}
    (hlong : w'.dirlong slot = w.dirlong slot) (hpath : w'.dirpath slot = w.dirpath slot) :
    w'.nameAt slot = w.nameAt slot := by
  rw [nameAt, nameAt, hlong, hpath]

@[simp] theorem nameAt_record (w : PortState) (e : Event) : (w.record e).nameAt = w.nameAt := rfl

@[simp] theorem kept_record (w : PortState) (e : Event) : (w.record e).kept = w.kept := rfl

theorem slotOf_congr {w w' : PortState} (hkind : ∀ d, (w'.desc d).kind = (w.desc d).kind)
    (hslot : ∀ d, (w'.desc d).pathSlot = (w.desc d).pathSlot) : w'.slotOf = w.slotOf := by
  funext d
  rw [slotOf, slotOf, hkind, hslot]

/-- The invariant reads the kinds and slots of descriptions, the slots' contents, and the events
about names and their memory. -/
theorem NameInv.congr {w w' : PortState} (h : w.NameInv)
    (hkind : ∀ d, (w'.desc d).kind = (w.desc d).kind)
    (hslot : ∀ d, (w'.desc d).pathSlot = (w.desc d).pathSlot)
    (hused : w'.dirpathUsed = w.dirpathUsed) (hpath : w'.dirpath = w.dirpath)
    (hlong : w'.dirlong = w.dirlong) (hsize : w'.dirlongSize = w.dirlongSize)
    (harena : w'.arena = w.arena) (hname : recordedName w'.log = recordedName w.log)
    (halloc : ∀ a n, w'.log.count (.allocated a n) = w.log.count (.allocated a n))
    (hfreed : ∀ a n, w'.log.count (.freed a n) = w.log.count (.freed a n)) : w'.NameInv := by
  have hslotOf := slotOf_congr hkind hslot
  have hkept : w'.kept = w.kept := by
    funext slot
    rw [kept, kept, hlong, hsize]
  have hnameAt : w'.nameAt = w.nameAt := by
    funext slot
    exact nameAt_congr (by rw [hlong]) (by rw [hpath])
  refine ⟨?_, ?_, ?_, ?_, ?_, ?_⟩
  · rw [hslotOf, hused]
    exact h.owner
  · rw [hslotOf]
    intro d slot hd
    rw [hkind]
    exact h.dir d slot hd
  · rw [hused, hlong]
    exact h.empty
  · rw [hslotOf, hnameAt, hname]
    exact h.name
  · rw [hlong]
    intro slot l hl
    rw [okmFromSnapshot, harena]
    exact h.own slot l hl
  · intro a n
    rw [halloc, hfreed, hkept]
    exact h.ledger a n

theorem NameInv.record {w : PortState} (h : w.NameInv) {e : Event}
    (he : e.ofResource = true) : (w.record e).NameInv := by
  refine h.congr (fun _ => rfl) (fun _ => rfl) rfl rfl rfl rfl rfl ?_ ?_ ?_
  · rw [record_log, recordedName_append]
    cases e <;> simp [Event.ofResource, nameStep] at he ⊢
  · intro a n
    cases e <;> simp [Event.ofResource] at he ⊢
  · intro a n
    cases e <;> simp [Event.ofResource] at he ⊢

theorem NameInv.settling {w : PortState} (h : w.NameInv) (l : List Settling) :
    ({ w with settling := l } : PortState).NameInv :=
  h.congr (fun _ => rfl) (fun _ => rfl) rfl rfl rfl rfl rfl rfl (fun _ _ => rfl) fun _ _ => rfl

theorem NameInv.sock {w : PortState} (h : w.NameInv) (t : Fin okmMaxSock → Sock) :
    ({ w with sock := t } : PortState).NameInv :=
  h.congr (fun _ => rfl) (fun _ => rfl) rfl rfl rfl rfl rfl rfl (fun _ _ => rfl) fun _ _ => rfl

theorem NameInv.letGo {w : PortState} (h : w.NameInv) (me : Context) (p : Desc) :
    (w.letGo me p).NameInv :=
  letGo_keeps (fun _ _ hw => hw.record rfl) (fun _ _ hw => hw.record rfl) (fun _ t hw => hw.sock t)
    (fun _ l hw => hw.settling l) p h

/-- A description's slot belongs to no other. -/
theorem NameInv.unique {w : PortState} (h : w.NameInv) {d e : Fin okmMaxDesc}
    {slot : Fin okmMaxDirs} (hd : w.slotOf d = some slot) (he : w.slotOf e = some slot) :
    d = e := by
  by_contra hne
  -- without the first, the second would still occupy the slot
  have hupd := occ_update w.slotOf d none slot
  have hpos : 0 < occ (Function.update w.slotOf d none) slot :=
    occ_pos (i := e) (by rw [Function.update_of_ne (Ne.symm hne)]; exact he)
  have howner := h.owner slot
  simp only [hd, if_true, reduceCtorEq, if_false] at hupd
  split_ifs at howner <;> omega

theorem NameInv.used {w : PortState} (h : w.NameInv) {d : Fin okmMaxDesc}
    {slot : Fin okmMaxDirs} (hd : w.slotOf d = some slot) : w.dirpathUsed slot = true := by
  have hpos := occ_pos (g := w.slotOf) hd
  have howner := h.owner slot
  by_contra hused
  rw [if_neg hused] at howner
  omega

/-! ## Clearing a slot -/

theorem pathSlotClear_dirlong (w : PortState) (slot : Fin okmMaxDirs) :
    (w.pathSlotClear slot).dirlong = Function.update w.dirlong slot none := by
  unfold pathSlotClear
  split <;> simp

theorem pathSlotClear_dirlongSize (w : PortState) (slot : Fin okmMaxDirs) :
    (w.pathSlotClear slot).dirlongSize = Function.update w.dirlongSize slot 0 := by
  unfold pathSlotClear
  split <;> simp

theorem pathSlotClear_dirpath (w : PortState) (slot : Fin okmMaxDirs) :
    (w.pathSlotClear slot).dirpath = Function.update w.dirpath slot [] := by
  unfold pathSlotClear
  split <;> simp

theorem nameAt_pathSlotClear (w : PortState) (slot t : Fin okmMaxDirs) :
    (w.pathSlotClear slot).nameAt t = if t = slot then none else w.nameAt t := by
  unfold nameAt
  rw [pathSlotClear_dirlong, pathSlotClear_dirpath]
  by_cases ht : t = slot
  · subst ht
    simp
  · simp [ht]

theorem kept_pathSlotClear (w : PortState) (slot : Fin okmMaxDirs) :
    (w.pathSlotClear slot).kept = Function.update w.kept slot none := by
  funext t
  unfold kept
  rw [pathSlotClear_dirlong, pathSlotClear_dirlongSize]
  by_cases ht : t = slot
  · subst ht
    simp
  · simp [ht]

/-- A slot's memory is given back as it is cleared. -/
theorem pathSlotClear_log {w : PortState}
    (hown : ∀ slot l, w.dirlong slot = some l → w.okmFromSnapshot l.addr = false)
    (slot : Fin okmMaxDirs) :
    (w.pathSlotClear slot).log =
      match w.kept slot with
      | some (a, n) => w.log ++ [.freed a n]
      | none => w.log := by
  unfold pathSlotClear kept
  cases hl : w.dirlong slot with
  | none => rfl
  | some l => simp [okmKalFree, hown slot l hl]

/-- **Clearing a slot** keeps the invariant; the names recorded are as they were. -/
theorem NameInv.pathSlotClear {w : PortState} (h : w.NameInv) (slot : Fin okmMaxDirs) :
    (w.pathSlotClear slot).NameInv := by
  have hlog := pathSlotClear_log h.own slot
  have hslotOf : (w.pathSlotClear slot).slotOf = w.slotOf := slotOf_congr (by simp) (by simp)
  refine ⟨?_, ?_, ?_, ?_, ?_, ?_⟩
  · -- the slot stays its description's: it is emptied here, and given up by `dropName` only
    rw [hslotOf, pathSlotClear_dirpathUsed]
    exact h.owner
  · rw [hslotOf, pathSlotClear_desc]
    exact h.dir
  · intro t ht
    rw [pathSlotClear_dirpathUsed] at ht
    rw [pathSlotClear_dirlong]
    by_cases hts : t = slot
    · subst hts
      simp
    · simpa [hts] using h.empty t ht
  · intro d t hd
    rw [hslotOf] at hd
    -- what is logged is about memory, so no recorded name changes ...
    have hname : recordedName (w.pathSlotClear slot).log = recordedName w.log := by
      rw [hlog]
      split
      · rw [recordedName_append]
        rfl
      · rfl
    -- ... and the name in this slot is now unknown
    rw [nameAt_pathSlotClear, hname]
    split_ifs
    · exact Or.inl rfl
    · exact h.name d t hd
  · intro t l hl
    rw [pathSlotClear_dirlong] at hl
    rw [okmFromSnapshot, pathSlotClear_arena]
    by_cases hts : t = slot
    · subst hts
      simp at hl
    · exact h.own t l (by simpa [hts] using hl)
  · -- the ledger: the slot's memory leaves `kept` as it is logged freed
    intro a n
    have hledger := h.ledger a n
    have hocc := occ_update w.kept slot none (a, n)
    rw [hlog, kept_pathSlotClear]
    cases hk : w.kept slot with
    | none =>
      simp only [hk, reduceCtorEq, if_false] at hocc ⊢
      omega
    | some r =>
      obtain ⟨b, m⟩ := r
      simp only [hk, reduceCtorEq, if_false] at hocc
      simp only [List.count_append, List.count_singleton, beq_iff_eq, Event.freed.injEq,
        reduceCtorEq, if_false]
      by_cases hbm : b = a ∧ m = n
      · obtain ⟨rfl, rfl⟩ := hbm
        simp at hocc ⊢
        omega
      · have : ¬ (some (b, m) = some (a, n)) := by simpa using hbm
        rw [if_neg this] at hocc
        rw [if_neg hbm]
        omega

/-! ## Recording a name -/

/-- A name given for a description without a slot. -/
theorem NameInv.record_named {w : PortState} (h : w.NameInv) {d : Fin okmMaxDesc}
    (hd : w.slotOf d = none) (abs : Text) : (w.record (.named d abs)).NameInv := by
  refine ⟨h.owner, h.dir, h.empty, ?_, h.own, ?_⟩
  · intro e slot he
    have hne : e ≠ d := by
      rintro rfl
      exact absurd (hd.symm.trans he) (by simp)
    rw [record_log, recordedName_append]
    simpa [nameStep, hne] using h.name e slot he
  · intro a n
    simpa using h.ledger a n

/-- Giving a description a name, and its own slot that name or nothing, changes no other name. -/
theorem NameInv.named_slot {w v : PortState} (h : w.NameInv) {d : Fin okmMaxDesc}
    {slot : Fin okmMaxDirs} (hd : w.slotOf d = some slot) (hdesc : v.desc = w.desc)
    {abs : Text} (hself : v.nameAt slot = none ∨ v.nameAt slot = some abs)
    (hother : ∀ t, t ≠ slot → v.nameAt t = w.nameAt t)
    (hlog : recordedName v.log = recordedName w.log) (e : Fin okmMaxDesc) (t : Fin okmMaxDirs)
    (he : (v.record (.named d abs)).slotOf e = some t) :
    (v.record (.named d abs)).nameAt t = none ∨
      (v.record (.named d abs)).nameAt t = recordedName (v.record (.named d abs)).log e := by
  have he' : w.slotOf e = some t := by
    rwa [slotOf_congr (w := w) (by simp [hdesc]) (by simp [hdesc])] at he
  rw [record_log, recordedName_append, hlog, nameAt_record]
  by_cases hed : e = d
  · -- the description named: its recorded name is `abs` now
    subst hed
    obtain rfl : t = slot := Option.some.inj (he'.symm.trans hd)
    simpa [nameStep] using hself
  · -- another: its slot is another too, and neither its name nor its record changed
    have ht : t ≠ slot := by
      rintro rfl
      exact hed (h.unique he' hd)
    rw [hother t ht]
    simpa [nameStep, hed] using h.name e t he'

theorem NameInv.writeShort {w : PortState} (h : w.NameInv) {d : Fin okmMaxDesc}
    {slot : Fin okmMaxDirs} (hd : w.slotOf d = some slot) (hlong : w.dirlong slot = none)
    {abs : Text} (hlen : abs.length < okmDirPath) :
    ((w.writeShort slot abs).record (.named d abs)).NameInv := by
  refine ⟨h.owner, h.dir, h.empty, ?_, h.own, ?_⟩
  · refine h.named_slot (v := w.writeShort slot abs) hd rfl ?_ (fun t ht => ?_) rfl
    · by_cases habs : abs = []
      · -- an empty name reads back as no name at all
        left
        simp [nameAt, PortState.writeShort, hlong, habs, copyStr]
      · right
        simp [nameAt, PortState.writeShort, hlong, copyStr_of_lt hlen, habs]
    · exact nameAt_congr rfl (Function.update_of_ne ht _ _)
  · intro a n
    have hledger := h.ledger a n
    simp only [record_log, List.count_append, List.count_singleton, beq_iff_eq, reduceCtorEq,
      if_false, add_zero]
    exact hledger

theorem kept_writeLong (w : PortState) (slot : Fin okmMaxDirs) (abs : Text) (addr : ℕ) :
    (w.writeLong slot abs addr).kept =
      Function.update w.kept slot (some (addr, abs.length + 1)) := by
  funext t
  by_cases hts : t = slot
  · subst hts
    simp [kept, PortState.writeLong]
  · simp [kept, PortState.writeLong, hts]

theorem NameInv.writeLong {w : PortState} (h : w.NameInv) {d : Fin okmMaxDesc}
    {slot : Fin okmMaxDirs} (hd : w.slotOf d = some slot) (hlong : w.dirlong slot = none)
    (abs : Text) {addr : ℕ} (haddr : w.okmFromSnapshot addr = false) :
    ((w.writeLong slot abs addr).record (.named d abs)).NameInv := by
  refine ⟨h.owner, h.dir, ?_, ?_, ?_, ?_⟩
  · intro t ht
    have hts : t ≠ slot := by
      rintro rfl
      exact absurd (ht.symm.trans (h.used hd)) (by simp)
    exact (Function.update_of_ne hts _ _).trans (h.empty t ht)
  · refine h.named_slot (v := w.writeLong slot abs addr) hd rfl (Or.inr ?_) (fun t ht => ?_) ?_
    · simp [nameAt, PortState.writeLong]
    · exact nameAt_congr (Function.update_of_ne ht _ _) rfl
    · exact recordedName_append _ _
  · -- the memory is not the snapshot's, so a later clearing gives it back
    intro t l hl
    by_cases hts : t = slot
    · subst hts
      obtain rfl : (⟨addr, abs⟩ : LongName) = l := by simpa [PortState.writeLong] using hl
      exact haddr
    · exact h.own t l (by simpa [PortState.writeLong, hts] using hl)
  · -- the ledger: the slot held nothing, and holds what is logged allocated
    intro a n
    have hledger := h.ledger a n
    have hocc := occ_update w.kept slot (some (addr, abs.length + 1)) (a, n)
    have hkept : w.kept slot = none := by simp [kept, hlong]
    have hcount : ((w.writeLong slot abs addr).record (.named d abs)).log =
        w.log ++ [.allocated addr (abs.length + 1)] ++ [.named d abs] := rfl
    simp only [hkept, reduceCtorEq, if_false, add_zero] at hocc
    rw [kept_record, kept_writeLong, hocc, hcount]
    simp only [List.count_append, List.count_singleton, beq_iff_eq, Event.allocated.injEq,
      reduceCtorEq, if_false, add_zero, Option.some.injEq, Prod.mk.injEq]
    omega

/-- A name written into the empty slot of the description it is given for. -/
theorem NameInv.writeName {w : PortState} (h : w.NameInv) {d : Fin okmMaxDesc}
    {slot : Fin okmMaxDirs} (hd : w.slotOf d = some slot) (hlong : w.dirlong slot = none)
    (hpath : w.dirpath slot = []) (abs : Text) {alloc : Option ℕ}
    (halloc : ∀ a ∈ alloc, w.okmFromSnapshot a = false) :
    ((w.writeName slot abs alloc).record (.named d abs)).NameInv := by
  unfold PortState.writeName
  split_ifs with hlen
  · exact h.writeShort hd hlong hlen
  · cases alloc with
    | none =>
      -- not kept: the slot stays empty
      refine ⟨h.owner, h.dir, h.empty, ?_, h.own, ?_⟩
      · refine h.named_slot hd rfl (Or.inl ?_) (fun _ _ => rfl) rfl
        simp [nameAt, hlong, hpath]
      · intro a n
        simpa using h.ledger a n
    | some addr => exact h.writeLong hd hlong abs (halloc addr rfl)

theorem NameInv.keepName {w : PortState} (h : w.NameInv) {d : Fin okmMaxDesc}
    {slot : Fin okmMaxDirs} (hd : w.slotOf d = some slot) (abs : Text) {alloc : Option ℕ}
    (halloc : ∀ a ∈ alloc, w.okmFromSnapshot a = false) :
    ((w.keepName slot abs alloc).record (.named d abs)).NameInv := by
  refine (h.pathSlotClear slot).writeName ?_ ?_ ?_ abs ?_
  · rwa [slotOf_congr (w := w) (by simp) (by simp)]
  · simp [pathSlotClear_dirlong]
  · simp [pathSlotClear_dirpath]
  · intro a ha
    rw [okmFromSnapshot, pathSlotClear_arena]
    exact halloc a ha

/-- A slot taken for a directory that has none. -/
theorem NameInv.takePathSlot {w : PortState} (h : w.NameInv) {d : Fin okmMaxDesc}
    {slot : Fin okmMaxDirs} (hkind : (w.desc d).kind = .dir) (hd : (w.desc d).pathSlot = none)
    (hused : w.dirpathUsed slot = false) :
    ((w.takePathSlot slot).setDesc d { w.desc d with pathSlot := some slot }).NameInv ∧
      ((w.takePathSlot slot).setDesc d { w.desc d with pathSlot := some slot }).slotOf d =
        some slot := by
  have hlong := h.empty slot hused
  have hslotOf : ((w.takePathSlot slot).setDesc d { w.desc d with pathSlot := some slot }).slotOf =
      Function.update w.slotOf d (some slot) := by
    funext e
    by_cases he : e = d
    · subst he
      simp [slotOf, setDesc_desc, hkind]
    · simp [slotOf, setDesc_desc, he, PortState.takePathSlot]
  have hnone : w.slotOf d = none := by simp [slotOf, hkind, hd]
  refine ⟨⟨?_, ?_, ?_, ?_, ?_, ?_⟩, by rw [hslotOf]; simp⟩
  · -- the slot had no owner, and has this one
    intro t
    have hocc := occ_update w.slotOf d (some slot) t
    have howner := h.owner t
    rw [hslotOf]
    simp only [hnone, reduceCtorEq, if_false, add_zero] at hocc
    rw [hocc, howner]
    by_cases ht : t = slot
    · subst ht
      simp [hused, PortState.takePathSlot]
    · have : ¬ slot = t := fun he => ht he.symm
      simp [ht, this, PortState.takePathSlot]
  · intro e t he
    rw [hslotOf] at he
    by_cases hed : e = d
    · subst hed
      simp [setDesc_desc, hkind]
    · simpa [setDesc_desc, hed, PortState.takePathSlot] using h.dir e t (by simpa [hed] using he)
  · intro t ht
    by_cases hts : t = slot
    · subst hts
      exact hlong
    · exact h.empty t (by simpa [PortState.takePathSlot, hts] using ht)
  · intro e t he
    rw [hslotOf] at he
    by_cases hed : e = d
    · subst hed
      -- taken empty: the name is not known yet
      obtain rfl : slot = t := by simpa using he
      left
      simp [nameAt, PortState.takePathSlot, hlong]
    · have het : w.slotOf e = some t := by simpa [hed] using he
      have hts : t ≠ slot := by
        rintro rfl
        rw [h.used het] at hused
        cases hused
      simpa [nameAt, PortState.takePathSlot, hts] using h.name e t het
  · exact h.own
  · exact h.ledger

/-- **Recording a name** keeps the invariant. -/
theorem nameInv_remember {w : PortState} (h : w.NameInv) (fd : Int) (abs : Text)
    {alloc : Option ℕ} (halloc : ∀ a ∈ alloc, w.okmFromSnapshot a = false) :
    (w.okmDirRemember fd abs alloc).NameInv := by
  rcases w.okmDirRemember_cases fd abs alloc with
    he | ⟨d, hkind, ⟨slot, hslot, he⟩ | ⟨hslot, he | ⟨slot, hused, he⟩⟩⟩
  · rwa [he]
  · rw [he]
    exact h.keepName (by simp [slotOf, hkind, hslot]) abs halloc
  · rw [he]
    exact h.record_named (by simp [slotOf, hslot]) abs
  · rw [he]
    obtain ⟨hinv, hd⟩ := h.takePathSlot hkind hslot hused
    exact hinv.keepName hd abs halloc

/-! ## Binding and releasing -/

/-- A description written with its kind and slot. -/
theorem NameInv.setDesc {w : PortState} (h : w.NameInv) {d : Fin okmMaxDesc} {p : Desc}
    (hkind : p.kind = (w.desc d).kind) (hslot : p.pathSlot = (w.desc d).pathSlot) :
    (w.setDesc d p).NameInv := by
  refine h.congr (fun e => ?_) (fun e => ?_) rfl rfl rfl rfl rfl rfl (fun _ _ => rfl) fun _ _ => rfl
  · rw [setDesc_desc]
    by_cases he : e = d
    · subst he
      simpa using hkind
    · simp [he]
  · rw [setDesc_desc]
    by_cases he : e = d
    · subst he
      simpa using hslot
    · simp [he]

theorem NameInv.setFd {w : PortState} (h : w.NameInv) (f : Fin okmMaxFd) (t : FdSlot) :
    (w.setFd f t).NameInv :=
  h.congr (fun _ => rfl) (fun _ => rfl) rfl rfl rfl rfl rfl rfl (fun _ _ => rfl) fun _ _ => rfl

theorem slotOf_setDesc (w : PortState) (d : Fin okmMaxDesc) (p : Desc) :
    (w.setDesc d p).slotOf =
      Function.update w.slotOf d (if p.kind = .free then none else p.pathSlot) := by
  funext e
  by_cases he : e = d
  · subst he
    simp [slotOf, setDesc_desc]
  · simp [slotOf, setDesc_desc, he]

/-- A free description is bound, without a slot. -/
theorem NameInv.bindDesc {w : PortState} (h : w.NameInv) {d : Fin okmMaxDesc}
    (hfree : (w.desc d).kind = .free) {p : Desc} (hslot : p.pathSlot = none) :
    (w.bindDesc d p).NameInv := by
  have hnone : w.slotOf d = none := by simp [slotOf, hfree]
  have hslotOf : (w.bindDesc d p).slotOf = w.slotOf := by
    change (w.setDesc d p).slotOf = w.slotOf
    rw [slotOf_setDesc, hslot, ite_self]
    exact Function.update_eq_self_iff.mpr hnone.symm
  -- a slot's owner is in use, so it is not the one being bound
  have hne : ∀ e t, w.slotOf e = some t → e ≠ d := by
    rintro e t he rfl
    exact absurd (hnone.symm.trans he) (by simp)
  refine ⟨?_, ?_, h.empty, ?_, h.own, ?_⟩
  · rw [hslotOf]
    exact h.owner
  · intro e t he
    rw [hslotOf] at he
    have := h.dir e t he
    simpa [PortState.bindDesc, setDesc_desc, hne e t he] using this
  · -- only the record of the one being bound is forgotten
    intro e t he
    rw [hslotOf] at he
    have hlog : recordedName (w.bindDesc d p).log =
        nameStep (recordedName w.log) (.bound d p.owned) := recordedName_append _ _
    have hname : (w.bindDesc d p).nameAt = w.nameAt := rfl
    rw [hlog, hname]
    simpa [nameStep, hne e t he] using h.name e t he
  · intro a n
    have hlog : (w.bindDesc d p).log = w.log ++ [.bound d p.owned] := rfl
    have hledger := h.ledger a n
    rw [hlog]
    simp only [List.count_append, List.count_singleton, beq_iff_eq, reduceCtorEq, if_false,
      add_zero]
    exact hledger

/-- A description in use is freed, and its slot with it. -/
theorem NameInv.freeDesc {w : PortState} (h : w.NameInv) {d : Fin okmMaxDesc}
    (hlive : (w.desc d).kind ≠ .free) {p q : Desc} (hp : p.pathSlot = (w.desc d).pathSlot)
    (hq : q.kind = .free) : ((w.dropName p).setDesc d q).NameInv := by
  unfold dropName
  rw [hp]
  cases hslot : (w.desc d).pathSlot with
  | none =>
    -- no name was kept: freeing the description takes nothing from the slots
    have hnone : w.slotOf d = none := by simp [slotOf, hslot]
    have hslotOf : (w.setDesc d q).slotOf = w.slotOf := by
      rw [slotOf_setDesc, hq, if_pos rfl]
      exact Function.update_eq_self_iff.mpr hnone.symm
    refine ⟨?_, ?_, h.empty, ?_, h.own, h.ledger⟩
    · rw [hslotOf]
      exact h.owner
    · intro e t he
      rw [hslotOf] at he
      have hne : e ≠ d := by
        rintro rfl
        exact absurd (hnone.symm.trans he) (by simp)
      simpa [setDesc_desc, hne] using h.dir e t he
    · rw [hslotOf]
      exact h.name
  | some slot =>
    have hd : w.slotOf d = some slot := by simp [slotOf, hlive, hslot]
    have hclear := h.pathSlotClear slot
    have hslotOf : (PortState.setDesc { w.pathSlotClear slot with
        dirpathUsed := Function.update (w.pathSlotClear slot).dirpathUsed slot false } d q).slotOf =
          Function.update w.slotOf d none := by
      rw [slotOf_setDesc, hq, if_pos rfl]
      congr 1
      exact slotOf_congr (by simp) (by simp)
    -- every other owner keeps another slot
    have hne : ∀ e t, Function.update w.slotOf d none e = some t →
        e ≠ d ∧ w.slotOf e = some t ∧ t ≠ slot := by
      intro e t he
      have hed : e ≠ d := by
        rintro rfl
        simp at he
      have het : w.slotOf e = some t := by simpa [hed] using he
      refine ⟨hed, het, ?_⟩
      rintro rfl
      exact hed (h.unique het hd)
    have hsame : (w.pathSlotClear slot).slotOf = w.slotOf := slotOf_congr (by simp) (by simp)
    refine ⟨?_, ?_, ?_, ?_, hclear.own, hclear.ledger⟩
    · -- the slot loses its one owner as it is marked unused
      intro t
      have hocc := occ_update w.slotOf d none t
      have howner := h.owner t
      rw [hslotOf]
      simp only [hd, reduceCtorEq, if_false, add_zero, Option.some.injEq] at hocc
      by_cases ht : t = slot
      · subst ht
        rw [h.used hd] at howner
        simp only [if_true] at hocc howner
        simp only [setDesc_dirpathUsed, Function.update_self]
        simp only [Bool.false_eq_true, if_false]
        omega
      · have hst : ¬ slot = t := fun he => ht he.symm
        simp only [hst, if_false, add_zero] at hocc
        simpa [ht, hocc] using howner
    · intro e t he
      rw [hslotOf] at he
      obtain ⟨hed, het, -⟩ := hne e t he
      simpa [setDesc_desc, hed] using h.dir e t het
    · intro t ht
      by_cases hts : t = slot
      · subst hts
        simp [pathSlotClear_dirlong]
      · exact hclear.empty t (by simpa [hts] using ht)
    · intro e t he
      rw [hslotOf] at he
      obtain ⟨-, het, -⟩ := hne e t he
      exact hclear.name e t (by rw [hsame]; exact het)

/-- **Releasing a description** in use keeps the invariant. -/
theorem NameInv.descRelease {w : PortState} (h : w.NameInv) (me : Context) {d : Fin okmMaxDesc}
    (hlive : (w.desc d).kind ≠ .free) : (w.descRelease me d).NameInv := by
  unfold PortState.descRelease
  simp only
  split_ifs
  · exact h.setDesc rfl rfl
  · exact (h.letGo me _).freeDesc (by simpa using hlive) (by simp) rfl

theorem NameInv.vacate {w : PortState} (h : w.NameInv) (me : Context) {f : Fin okmMaxFd}
    (hlive : ∀ d, w.named f = some d → (w.desc d).kind ≠ .free) : (w.vacate me f).NameInv := by
  unfold PortState.vacate
  split
  · rename_i d hd
    exact h.descRelease me (hlive d hd)
  · exact h

theorem nameInv_okmFdBind {w : PortState} (he : w.Exact) (h : w.NameInv) (me : Context) (fd : Int)
    (kind : Kind) (stream file dir : Handle) (flags : ℕ) :
    (w.okmFdBind me fd kind stream file dir flags).1.NameInv := by
  rcases w.okmFdBind_cases me fd kind stream file dir flags with heq | ⟨f, d, -, hd, heq⟩
  · rwa [heq]
  rw [heq]
  -- the description taken is named by no descriptor, so it is free ...
  have hzero := he.occ_descAlloc hd
  refine ((h.bindDesc ((he d).2.mpr hzero) rfl).vacate me ?_).setFd f _
  -- ... and is not the one the descriptor named before
  intro old hold
  have hne : old ≠ d := by
    rintro rfl
    have := occ_pos (g := w.named) (i := f) hold
    omega
  simpa [bindDesc, setDesc_desc, hne] using he.live (f := f) hold

theorem nameInv_okmFdDup {w : PortState} (he : w.Exact) (h : w.NameInv) (me : Context)
    (fd newfd : Int) (cloexec : Bool) : (w.okmFdDup me fd newfd cloexec).1.NameInv := by
  rcases w.okmFdDup_cases me fd newfd cloexec with heq | ⟨f, n, d, -, -, heq⟩
  · rwa [heq]
  · rw [heq]
    have hvac := h.vacate me (f := n) fun d hd => he.live hd
    have hadd : ((w.vacate me n).addRef d).NameInv := hvac.setDesc rfl rfl
    exact hadd.setFd n _

theorem nameInv_okmFdRelease {w : PortState} (he : w.Exact) (h : w.NameInv) (me : Context)
    (fd : Int) : (w.okmFdRelease me fd).NameInv := by
  rcases w.okmFdRelease_cases me fd with heq | ⟨f, d, hd, heq⟩
  · rwa [heq]
  · rw [heq]
    exact (h.setFd f {}).descRelease me (he.live (f := f) hd)

theorem nameInv_rules (me : Context) : OpRules me fun w => w.Exact ∧ w.NameInv where
  bind := fun w f kind stream file dir flags hk h =>
    ⟨(exact_rules me).bind w f kind stream file dir flags hk h.1,
      nameInv_okmFdBind h.1 h.2 me f kind stream file dir flags⟩
  dup := fun w fd newfd cloexec h =>
    ⟨(exact_rules me).dup w fd newfd cloexec h.1, nameInv_okmFdDup h.1 h.2 me fd newfd cloexec⟩
  release := fun w fd h =>
    ⟨(exact_rules me).release w fd h.1, nameInv_okmFdRelease h.1 h.2 me fd⟩
  cloexec := fun w fd on h => by
    refine ⟨(exact_rules me).cloexec w fd on h.1, ?_⟩
    rcases w.okmFdCloexec_cases fd on with heq | ⟨f, d, -, heq⟩
    · rw [heq]
      exact h.2
    · rw [heq]
      exact h.2.setFd f _
  remember := fun w fd abs alloc halloc h =>
    ⟨(exact_rules me).remember w fd abs alloc halloc h.1, nameInv_remember h.2 fd abs halloc⟩
  sock := fun w t h => ⟨(exact_rules me).sock w t h.1, h.2.sock t⟩
  descSock := fun w d slot h => ⟨(exact_rules me).descSock w d slot h.1, h.2.setDesc rfl rfl⟩
  returned := fun _ _ h => ⟨h.1, h.2.record rfl⟩

theorem nameInv_okmTableInitMemory (start : Start) : (okmTableInitMemory start).NameInv := by
  have hslot : ∀ d, (okmTableInitMemory start).slotOf d = none := fun d => by
    simp [slotOf, okmTableInitMemory]
  have hocc : ∀ slot, occ (okmTableInitMemory start).slotOf slot = 0 := fun slot => by
    rw [occ_eq_zero_iff]
    simp [hslot]
  refine ⟨?_, ?_, ?_, ?_, ?_, ?_⟩
  · intro slot
    rw [hocc]
    rfl
  · intro d slot hd
    rw [hslot] at hd
    cases hd
  · exact fun _ _ => rfl
  · intro d slot hd
    rw [hslot] at hd
    cases hd
  · intro slot l hl
    cases hl
  · intro a n
    have hkept : occ (okmTableInitMemory start).kept (a, n) = 0 := by
      rw [occ_eq_zero_iff]
      simp [kept, okmTableInitMemory]
    rw [hkept]
    rfl

end PortState

namespace System

open PortState

theorem nameInv_of_reachable {me : Context} {start : Start} {s : System}
    (h : Reachable step (System.start me start) s) : s.port.NameInv :=
  (port_invariant nameInv_rules
    (fun start => ⟨exact_okmTableInitMemory start, nameInv_okmTableInitMemory start⟩)
    (fun _ _ _ _ _ h => ⟨h.1, h.2.congr (fun _ => rfl) (fun _ => rfl) rfl rfl rfl rfl rfl rfl
      (fun _ _ => rfl) fun _ _ => rfl⟩)
    (fun _ l h => ⟨h.1, h.2.settling l⟩)
    (fun _ _ _ h => ⟨h.1, h.2.record rfl⟩) h).2

/-- **A directory's name is whole or unknown, and its own.** In every reachable state a used slot
belongs to exactly one open directory, and a description in use has no slot or a used one; an open
directory's name is unknown or the one recorded for it since it was bound; and of every address and
size, as much memory was freed as was allocated and is held by no slot. -/
theorem directory_names {me : Context} {start : Start} {s : System}
    (h : Reachable step (System.start me start) s) :
    (∀ slot, s.port.dirpathUsed slot = true →
      ∃! d, (s.port.desc d).kind = .dir ∧ (s.port.desc d).pathSlot = some slot) ∧
    (∀ d, (s.port.desc d).kind ≠ .free → (s.port.desc d).pathSlot = none ∨
      ∃ slot, (s.port.desc d).pathSlot = some slot ∧ s.port.dirpathUsed slot = true) ∧
    (∀ d, (s.port.desc d).kind = .dir → s.port.dirName (s.port.desc d) = none ∨
      s.port.dirName (s.port.desc d) = recordedName s.port.log d) ∧
    ∀ a n, s.port.log.count (.allocated a n) = s.port.log.count (.freed a n) +
      (Finset.univ.filter fun slot =>
        (s.port.dirlong slot).map (fun l => (l.addr, s.port.dirlongSize slot)) =
          some (a, n)).card := by
  have hinv := nameInv_of_reachable h
  have hslotOf : ∀ d slot, (s.port.desc d).kind ≠ .free →
      ((s.port.desc d).pathSlot = some slot ↔ s.port.slotOf d = some slot) := by
    intro d slot hlive
    simp [slotOf, hlive]
  refine ⟨?_, ?_, ?_, hinv.ledger⟩
  · intro slot hused
    have hocc := hinv.owner slot
    rw [hused, if_pos rfl] at hocc
    -- one occupant, so there is an owner ...
    obtain ⟨d, hd⟩ : ∃ d, s.port.slotOf d = some slot := by
      by_contra hnone
      rw [not_exists] at hnone
      rw [(occ_eq_zero_iff _ _).mpr hnone] at hocc
      cases hocc
    have hkind := hinv.dir d slot hd
    refine ⟨d, ⟨hkind, (hslotOf d slot (by simp [hkind])).mpr hd⟩, ?_⟩
    -- ... and no second
    rintro e ⟨hekind, he⟩
    exact hinv.unique ((hslotOf e slot (by simp [hekind])).mp he) hd
  · intro d hlive
    cases hslot : (s.port.desc d).pathSlot with
    | none => exact Or.inl rfl
    | some slot => exact Or.inr ⟨slot, rfl, hinv.used ((hslotOf d slot hlive).mp hslot)⟩
  · intro d hkind
    unfold dirName
    cases hslot : (s.port.desc d).pathSlot with
    | none => exact Or.inl rfl
    | some slot => exact hinv.name d slot ((hslotOf d slot (by simp [hkind])).mp hslot)

theorem directory_names_opened :
    ∃ s, run step (System.start 1 .supplied)
        [.lock 1, .op 1 (.dir 9 0 (some ['/', 'a', '/', 'b']) none)] = some s ∧
      s.port.dirName (s.port.desc ⟨3, by decide⟩) = some ['/', 'a', '/', 'b'] ∧
      (s.port.dirName (s.port.desc ⟨3, by decide⟩) = none ∨
        s.port.dirName (s.port.desc ⟨3, by decide⟩) =
          recordedName s.port.log ⟨3, by decide⟩) := by
  refine ⟨_, rfl, by decide +kernel, ?_⟩
  exact (directory_names ⟨[.lock 1, .op 1 (.dir 9 0 (some ['/', 'a', '/', 'b']) none)], rfl⟩).2.2.1
    ⟨3, by decide⟩ (by decide +kernel)

end System

end OpenkalMusl
