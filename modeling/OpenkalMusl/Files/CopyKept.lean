import OpenkalMusl.Files.CopyRounds

/-!
# When `copy_file_range` copies what it says

The call does what it says whatever the files hold exactly where its rounds and its seeks allow it.
Of two descriptions, what is read has to be written, or the position of the input put back; and
within one file a later round may not read what an earlier one wrote. Of one description nothing
may be copied at all: its position is moved by the reads and by the writes. One variable for both
offsets is advanced twice, so that nothing may be copied there either.

That the condition is needed is seen from the positions and the sizes, and where it is of what is
copied, from files in which one byte is marked.

## Main definitions

* `KeptApart`, `KeptOne`, `CopyKept`: the condition, of two descriptions, of one, and of the call
* `Files.holding`, `Files.marked`: other contents

## Main results

* `said_of_copyKept`: the condition is enough
* `copyKept_of_said`: it is needed
* `copyFileRange_said_iff`: when `copy_file_range` copies what it says it copied
* `copyFileRange_not_said_full`: an input whose position is moved by a copy that fails
-/

namespace OpenkalMusl

/-- A file of the same size in which one byte is not zero. -/
def FileBytes.marked (f : FileBytes) (x : ℕ) : FileBytes where
  size := f.size
  byte i := if i = x ∧ i < f.size then 1 else 0
  beyond _ hi := if_neg fun h => absurd h.2 (not_lt.mpr hi)

/-- The same files with other contents. -/
def Files.holding (s : Files) (file : ℕ → FileBytes) : Files := { s with file := file }

/-- In every file one byte is not zero. -/
def Files.marked (s : Files) (x : ℕ) : Files := s.holding fun f => (s.file f).marked x

section Conditions

variable (c : CopyEnds) (offIn offOut : Option ℕ) (cells : Cells) (s : Files) (p : CopyPlan)

/-- When a copy between two descriptions does what it says. -/
structure KeptApart : Prop where
  /-- One variable for both offsets is not advanced. -/
  apart : offIn.isSome → offIn = offOut → p.written 0 = 0
  atEnd : AtEnd c s p
  /-- What is read is written, unless the position of the input does not matter. -/
  whole : offIn = none → ∀ k, p.Reached k → p.brought k ≤ p.takes k
  ordered : ∀ k, p.OrderedAt k
  /-- The positions are put back, or are where they were. -/
  backIn : offIn.isSome → ¬BackIn c offIn offOut s → ∀ k, p.Last k →
    p.a + p.copied (k + 1) = s.pos c.from_
  backOut : offOut.isSome → ¬BackOut c offIn offOut s → ∀ k, p.Last k →
    p.b + p.copied k + p.written k = s.pos c.into

/-- When a copy within one description does what it says: it copies nothing, and its one position is
put back or is where it was. -/
structure KeptOne : Prop where
  idle : p.written 0 = 0
  /-- What is put back last is where the input was placed. -/
  placed : BackOut c offIn offOut s → startOf s c.from_ (offIn.map cells) = s.pos c.from_
  back : ¬BackIn c offIn offOut s → ¬BackOut c offIn offOut s →
    p.a + p.brought 0 = s.pos c.from_

end Conditions

section Apart

variable {c : CopyEnds} {offIn offOut : Option ℕ} {cells : Cells} {s v : Files} {p : CopyPlan}
  {want : ℕ}

theorem placedBoth_pos_from (hne : c.from_ ≠ c.into) :
    (placedBoth c offIn offOut cells s).pos c.from_ = startOf s c.from_ (offIn.map cells) := by
  rw [placedBoth, Files.placed_pos_of_ne hne, Files.placed_pos_self]

theorem placedBoth_pos_into (hne : c.from_ ≠ c.into) :
    (placedBoth c offIn offOut cells s).pos c.into = startOf s c.into (offOut.map cells) := by
  rw [placedBoth, Files.placed_pos_self]
  cases offOut with
  | some q => rfl
  | none => exact Files.placed_pos_of_ne hne.symm _

/-- The plan of the copy. -/
def planApart (c : CopyEnds) (offIn offOut : Option ℕ) (want : ℕ) (cells : Cells) (s : Files) :
    CopyPlan :=
  c.plan (startOf s c.from_ (offIn.map cells)) (startOf s c.into (offOut.map cells)) want s

theorem planApart_spec (hp : planApart c offIn offOut want cells s = p) :
    p.a = startOf s c.from_ (offIn.map cells) ∧ p.b = startOf s c.into (offOut.map cells) ∧
      p.size = (s.under c.env c.from_).size := by
  subst hp
  exact ⟨rfl, rfl, rfl⟩

theorem staged_placedBoth (hp : planApart c offIn offOut want cells s = p)
    (hne : c.from_ ≠ c.into) (hend : AtEnd c s p) :
    Staged c s p 0 (placedBoth c offIn offOut cells s) where
  reached := nofun
  transfers := rfl
  posIn := by
    rw [placedBoth_pos_from hne, (planApart_spec hp).1, CopyPlan.copied_zero, Nat.add_zero]
  posOut := by
    rw [placedBoth_pos_into hne, (planApart_spec hp).2.1, CopyPlan.copied_zero, Nat.add_zero]
  sizeIn := by
    rw [CopyPlan.copied_zero, CopyPlan.ends_zero, (planApart_spec hp).2.2]
    rfl
  sizeOut happends hfirst := (hend happends).resolve_left hfirst.ne'

theorem roundWrites_placedBoth (hp : planApart c offIn offOut want cells s = p)
    (hne : c.from_ ≠ c.into) :
    c.roundWrites want (placedBoth c offIn offOut cells s) 0 = p.written 0 := by
  rw [CopyEnds.roundWrites, CopyEnds.roundReads, placedBoth_pos_from hne]
  subst hp
  unfold CopyPlan.written CopyPlan.brought CopyPlan.reads
  rw [CopyPlan.copied_zero, CopyPlan.ends_zero, Nat.add_zero]
  rfl

theorem broughtBack_from (hne : c.from_ ≠ c.into) (pos : Fin okmMaxDesc → ℕ) :
    broughtBack c offIn offOut cells s pos c.from_ =
      if BackIn c offIn offOut s then s.pos c.from_ else pos c.from_ := by
  unfold broughtBack
  split_ifs <;> simp [Function.update_of_ne hne]

theorem broughtBack_into (hne : c.from_ ≠ c.into) (pos : Fin okmMaxDesc → ℕ) :
    broughtBack c offIn offOut cells s pos c.into =
      if BackOut c offIn offOut s then s.pos c.into else pos c.into := by
  have hkeep : (s.placed c.from_ (offIn.map cells)).pos c.into = s.pos c.into :=
    Function.update_of_ne hne.symm _ _
  unfold broughtBack
  split_ifs <;> simp [Function.update_of_ne hne.symm, hkeep]

/-- **Where the condition holds**, the copy is as it is said. -/
theorem copySaid_of_keptApart (hp : planApart c offIn offOut want cells s = p)
    (hne : c.from_ ≠ c.into) (h : KeptApart c offIn offOut s p) {l : Looped}
    (hl : copyLoop c want want (placedBoth c offIn offOut cells s) 0 = l)
    (hfile : v.file = l.files.file)
    (hpos : v.pos = broughtBack c offIn offOut cells s l.files.pos) :
    CopySaid c offIn offOut cells s l.done v := by
  subst hl
  have hstart := staged_placedBoth hp hne h.atEnd
  obtain ⟨hfrom, hinto, hsize⟩ := planApart_spec hp
  obtain ⟨k, t, hlast, ht, hcopying, hpassed, hdone⟩ := copyLoop_staged
    (Q := fun k u => Copying c s p (p.copied k) u) hp hne hstart
    ⟨(copiedTo_zero c p.a p.b s).symm, Or.inl rfl⟩ fun k u v hu hwhole hcopying hround => by
      have hnext := hcopying.round hp hne (h.ordered k) hu hround
      rwa [CopyPlan.written_of_whole hwhole, ← CopyPlan.copied_succ] at hnext
  have hcopied := hcopying.round hp hne (h.ordered k) ht hpassed
  obtain ⟨hposIn, hposOut, -⟩ := ht.round hp hne hpassed
  rw [hdone]
  refine ⟨?_, ?_, fun hsome hone => ?_, ?_, ?_⟩
  · rw [← hfrom, ← hsize]
    exact hcopied.bound.symm
  · rw [hfile, hcopied.file, hfrom, hinto]
  · rw [← hdone, copyLoop_done_eq_zero_iff, roundWrites_placedBoth hp hne]
    exact h.apart hsome hone
  · rw [hpos, broughtBack_from hne, hposIn]
    cases offIn with
    | none =>
      -- whatever was read was written
      have hle := h.whole rfl k hlast.1
      have hwritten : p.written k = p.brought k := Nat.min_eq_left hle
      rw [if_neg not_backIn_none, CopyPlan.copied_succ, hfrom, hwritten]
      rfl
    | some q =>
      by_cases hback : BackIn c (some q) offOut s
      · rw [if_pos hback]
        rfl
      · rw [if_neg hback, h.backIn rfl hback k hlast]
        rfl
  · rw [hpos, broughtBack_into hne, hposOut]
    cases offOut with
    | none =>
      rw [if_neg not_backOut_none, hinto, Nat.add_assoc]
      rfl
    | some q =>
      by_cases hback : BackOut c offIn (some q) s
      · rw [if_pos hback]
        rfl
      · rw [if_neg hback, h.backOut rfl hback k hlast]
        rfl

/-- What is appended is said to be where the file ended. -/
theorem atEnd_of_copySaid (hp : planApart c offIn offOut want cells s = p) (hne : c.from_ ≠ c.into)
    {l : Looped} (hl : copyLoop c want want (placedBoth c offIn offOut cells s) 0 = l)
    (hfile : v.file = l.files.file) (h : CopySaid c offIn offOut cells s l.done v) :
    AtEnd c s p := by
  subst hl
  intro happends
  obtain ⟨-, hinto, -⟩ := planApart_spec hp
  by_contra hneither
  rw [not_or] at hneither
  have hdone := mt copyLoop_done_eq_zero_iff.mp
    (fun hzero => hneither.1 ((roundWrites_placedBoth hp hne).symm.trans hzero))
  have hsize := @copyLoop_appends c want (placedBoth c offIn offOut cells s) happends
  -- the file is longer by what was copied, wherever the copy was to go
  have hlonger := congrArg FileBytes.size (congrFun (hfile.symm.trans h.file) (c.env.fileOf c.into))
  rw [copiedTo, Function.update_self,
    FileBytes.size_write_read _ _ (Nat.pos_of_ne_zero hdone) (h.bytes.resolve_right hdone),
    ← hinto] at hlonger
  have hend := hneither.2
  have hsame : (placedBoth c offIn offOut cells s).under c.env c.into = s.under c.env c.into := rfl
  rw [hsame] at hsize
  rw [Files.under] at hsize
  omega

/-- **What a copy that is as it is said leaves**, by its numbers. -/
theorem keptApart_of_copySaid (hp : planApart c offIn offOut want cells s = p)
    (hne : c.from_ ≠ c.into) {l : Looped}
    (hl : copyLoop c want want (placedBoth c offIn offOut cells s) 0 = l)
    (hfile : v.file = l.files.file)
    (hpos : v.pos = broughtBack c offIn offOut cells s l.files.pos)
    (h : CopySaid c offIn offOut cells s l.done v) (hordered : ∀ k, p.OrderedAt k) :
    KeptApart c offIn offOut s p := by
  have hend := atEnd_of_copySaid hp hne hl hfile h
  subst hl
  obtain ⟨hfrom, hinto, -⟩ := planApart_spec hp
  obtain ⟨k, hlast, hdone, hposIn, hposOut⟩ :=
    copyLoop_lands hp hne (staged_placedBoth hp hne hend)
  have hin := h.posIn
  have hout := h.posOut
  rw [hpos, broughtBack_from hne, hposIn, hdone] at hin
  rw [hpos, broughtBack_into hne, hposOut, hdone] at hout
  refine ⟨fun hsome hone => ?_, hend, ?_, hordered, ?_, ?_⟩
  · rw [← roundWrites_placedBoth hp hne, ← copyLoop_done_eq_zero_iff]
    exact h.apart hsome hone
  · -- the last round has written what it read, as those before it
    rintro rfl k' hk'
    rw [if_neg not_backIn_none, CopyPlan.copied_succ, hfrom] at hin
    have hwritten : p.written k = p.brought k := by
      have hsum : s.pos c.from_ + (p.copied k + p.brought k) =
        s.pos c.from_ + (p.copied k + p.written k) := hin
      omega
    rcases (hk'.le_last hlast).lt_or_eq with hlt | rfl
    · exact (hlast.1 k' hlt).2
    · exact hwritten ▸ Nat.min_le_right _ _
  · intro hsome hback k' hk'
    rw [hk'.unique hlast]
    rw [if_neg hback, if_pos hsome] at hin
    exact hin
  · intro hsome hback k' hk'
    rw [hk'.unique hlast]
    rw [if_neg hback, if_pos hsome] at hout
    exact hout

/-- **Where a round reads what an earlier one wrote**, that is what comes behind it: the first such
round, and a byte of it. -/
theorem byte_of_unordered (hp : planApart c offIn offOut want cells s = p)
    (hne : c.from_ ≠ c.into) (hend : AtEnd c s p) (hsame : p.same = true) {k x : ℕ}
    (hreached : p.Reached k) (hbefore : ∀ j < k, p.OrderedAt j) (hread : p.a + p.copied k ≤ x)
    (hread' : x < p.a + p.copied k + p.written k) (hx : p.b ≤ x) (hx' : x < p.b + p.copied k) :
    ((copyLoop c want want (placedBoth c offIn offOut cells s) 0).files.under c.env
      c.into).byte (p.b + (x - p.a)) = (s.under c.env c.from_).byte (p.a + (x - p.b)) := by
  have hafter : ∀ j u v, Staged c s p j u →
      (j ≤ k → Copying c s p (p.copied j) u) ∧ (k < j → (u.under c.env c.into).byte
        (p.b + (x - p.a)) = (s.under c.env c.from_).byte (p.a + (x - p.b))) →
      CopyPassed c u v (p.brought j) (p.written j) → k ≤ j → (v.under c.env c.into).byte
        (p.b + (x - p.a)) = (s.under c.env c.from_).byte (p.a + (x - p.b)) := by
    intro j u v hu hq hround hle
    rcases hle.lt_or_eq with hlt | rfl
    · -- it was written before, and is left alone
      have hsum := hu.reached.copied_add_written_le hlt
      rw [hu.byte_eq hne hround (by omega)]
      exact hq.2 hlt
    · exact (hq.1 le_rfl).byte_again hp hne hu hround hsame hread hread' hx hx'
  obtain ⟨j, t, hlast, ht, hq, hpassed, -⟩ := copyLoop_staged
    (Q := fun j u => (j ≤ k → Copying c s p (p.copied j) u) ∧ (k < j → (u.under c.env c.into).byte
        (p.b + (x - p.a)) = (s.under c.env c.from_).byte (p.a + (x - p.b)))) hp hne
    (staged_placedBoth hp hne hend)
    ⟨fun _ => ⟨(copiedTo_zero c p.a p.b s).symm, Or.inl rfl⟩, nofun⟩
    fun j u v hu hwhole hq hround => by
      refine ⟨fun hle => ?_, fun hlt => hafter j u v hu hq hround (Nat.le_of_lt_succ hlt)⟩
      have hnext := (hq.1 (by omega)).round hp hne (hbefore j (by omega)) hu hround
      rwa [CopyPlan.written_of_whole hwhole, ← CopyPlan.copied_succ] at hnext
  exact hafter j t _ ht hq hpassed (hreached.le_last hlast)

/-- **What is said of every contents asks for the order.** -/
theorem ordered_of_copySaid (hp : planApart c offIn offOut want cells s = p)
    (hne : c.from_ ≠ c.into) (hend : AtEnd c s p)
    (h : ∀ x, ∃ v, v.file = (copyLoop c want want
        (placedBoth c offIn offOut cells (s.marked x)) 0).files.file ∧
      CopySaid c offIn offOut cells (s.marked x)
        (copyLoop c want want (placedBoth c offIn offOut cells (s.marked x)) 0).done v) (k : ℕ) :
    p.OrderedAt k := by
  -- the first round that reads what was written
  induction k using Nat.strong_induction_on with
  | _ k hbefore =>
    intro hsame hlt hk hreached hpos
    by_contra hbeyond
    have hfirst := hreached.copied_pos hk
    -- the byte of it that is marked
    generalize hx : max p.b (p.a + p.copied k) = x
    obtain ⟨v, hfile, hcopied⟩ := h x
    have hp' : planApart c offIn offOut want cells (s.marked x) = p := hp
    have hend' : AtEnd c (s.marked x) p := hend
    obtain ⟨hfrom, hinto, hsize⟩ := planApart_spec hp'
    obtain ⟨j, hlast, hdone, -, -⟩ :=
      copyLoop_lands hp' hne (staged_placedBoth hp' hne hend')
    have hcount : p.copied k + p.written k ≤ p.copied j + p.written j := by
      rcases (hreached.le_last hlast).lt_or_eq with hless | rfl
      · exact (hlast.1.copied_add_written_le hless).trans (Nat.le_add_right _ _)
      · exact le_rfl
    have hbytes := hcopied.bytes
    rw [hdone, ← hfrom, ← hsize] at hbytes
    have hbound : p.a + (p.copied j + p.written j) ≤ p.size :=
      hbytes.resolve_right (by omega)
    have hagain := byte_of_unordered hp' hne hend' hsame hreached hbefore (x := x) (by omega)
      (by omega) (by omega) (by omega)
    have hone : ((s.marked x).under c.env c.from_).byte x = 1 :=
      if_pos ⟨rfl, show x < ((s.marked x).under c.env c.from_).size by omega⟩
    have hzero : ((s.marked x).under c.env c.from_).byte (p.a + (x - p.b)) = 0 :=
      if_neg fun hmark => by omega
    -- what is said puts the mark where the loop has put a zero
    have hsaid := congrFun (hfile.symm.trans hcopied.file) (c.env.fileOf c.into)
    rw [copiedTo, Function.update_self, ← hfrom, ← hinto, hdone] at hsaid
    have hbyte := congrArg (fun f : FileBytes => f.byte (p.b + (x - p.a))) hsaid
    rw [FileBytes.byte_write_read _ _ (hsize ▸ hbound) (by omega),
      show p.a + (x - p.a) = x by omega, hone] at hbyte
    rw [Files.under, hbyte, hzero] at hagain
    cases hagain

end Apart

section One

variable {c : CopyEnds} {offIn offOut : Option ℕ} {cells : Cells} {s v : Files} {p : CopyPlan}
  {want : ℕ}

/-- Where a copy within one description begins to read. -/
def beginOne (c : CopyEnds) (offIn offOut : Option ℕ) (cells : Cells) (s : Files) : ℕ :=
  if offOut.isSome then startOf s c.into (offOut.map cells)
  else startOf s c.from_ (offIn.map cells)

/-- The plan of such a copy. -/
def planOne (c : CopyEnds) (offIn offOut : Option ℕ) (want : ℕ) (cells : Cells) (s : Files) :
    CopyPlan :=
  c.plan (beginOne c offIn offOut cells s) (beginOne c offIn offOut cells s) want s

theorem placedBoth_pos_one (hone : c.from_ = c.into) :
    (placedBoth c offIn offOut cells s).pos c.from_ = beginOne c offIn offOut cells s := by
  rw [placedBoth, beginOne, hone, Files.placed_pos_self]
  cases offOut with
  | some q => rfl
  | none => exact Files.placed_pos_self ..

theorem roundReads_one (hp : planOne c offIn offOut want cells s = p) (hone : c.from_ = c.into) :
    c.roundReads want (placedBoth c offIn offOut cells s) 0 = p.brought 0 := by
  rw [CopyEnds.roundReads, placedBoth_pos_one hone]
  subst hp
  unfold CopyPlan.brought CopyPlan.reads
  rw [CopyPlan.copied_zero, CopyPlan.ends_zero, Nat.add_zero]
  rfl

theorem roundWrites_one (hp : planOne c offIn offOut want cells s = p) (hone : c.from_ = c.into) :
    c.roundWrites want (placedBoth c offIn offOut cells s) 0 = p.written 0 := by
  rw [CopyEnds.roundWrites, roundReads_one hp hone]
  subst hp
  rfl

/-- The one position, once it was put back. -/
theorem broughtBack_one (hone : c.from_ = c.into) (pos : Fin okmMaxDesc → ℕ) :
    broughtBack c offIn offOut cells s pos c.from_ =
      if BackOut c offIn offOut s then startOf s c.from_ (offIn.map cells)
      else if BackIn c offIn offOut s then s.pos c.from_ else pos c.from_ := by
  unfold broughtBack
  split_ifs <;> simp [← hone]

/-- A copy that copies nothing within one description is as it is said exactly where the position is
what it was. -/
theorem copySaid_one_iff (hp : planOne c offIn offOut want cells s = p) (hone : c.from_ = c.into)
    {l : Looped} (hl : copyLoop c want want (placedBoth c offIn offOut cells s) 0 = l)
    (hfile : v.file = l.files.file)
    (hpos : v.pos = broughtBack c offIn offOut cells s l.files.pos) (hidle : p.written 0 = 0) :
    CopySaid c offIn offOut cells s l.done v ↔ KeptOne c offIn offOut cells s p := by
  subst hl
  obtain ⟨hpassed, hdone⟩ := copyLoop_first ((roundWrites_one hp hone).trans hidle)
  have hbegin : p.a = beginOne c offIn offOut cells s := by
    subst hp
    rfl
  have hleft : (copyLoop c want want (placedBoth c offIn offOut cells s) 0).files.pos c.from_ =
      p.a + p.brought 0 := by
    rw [hpassed.pos, if_pos rfl, Function.update_self, placedBoth_pos_one hone,
      roundReads_one hp hone, hbegin]
  have hback : v.pos c.from_ = s.pos c.from_ ↔
      (BackOut c offIn offOut s → startOf s c.from_ (offIn.map cells) = s.pos c.from_) ∧
        (¬BackIn c offIn offOut s → ¬BackOut c offIn offOut s →
          p.a + p.brought 0 = s.pos c.from_) := by
    rw [hpos, broughtBack_one hone, hleft]
    split_ifs <;> simp [*]
  rw [hdone]
  constructor
  · intro h
    have hkept := h.posIn
    rw [Nat.add_zero, ite_self] at hkept
    exact ⟨hidle, (hback.mp hkept).1, (hback.mp hkept).2⟩
  · intro h
    have hkept := hback.mpr ⟨h.placed, h.back⟩
    refine ⟨Or.inr rfl, ?_, fun _ _ => rfl, ?_, ?_⟩
    · rw [hfile, hpassed.file, FileBytes.read_zero, FileBytes.write_nil, Files.under,
        Function.update_eq_self, copiedTo_zero]
      rfl
    · rw [Nat.add_zero, ite_self, hkept]
    · rw [Nat.add_zero, ite_self, ← hone, hkept]

/-- Within one description an offset that is given and one that is not, or none that is given, leave
no room for a copy: the position would have to be where it was and further on. -/
theorem idle_of_offsets (hone : c.from_ = c.into) {l : Looped}
    (hl : copyLoop c want want (placedBoth c offIn offOut cells s) 0 = l)
    (hpos : v.pos = broughtBack c offIn offOut cells s l.files.pos)
    (h : CopySaid c offIn offOut cells s l.done v) (hoffs : ¬(offIn.isSome ∧ offOut.isSome)) :
    l.done = 0 := by
  have hin := h.posIn
  have hout := h.posOut
  rw [← hone, hin] at hout
  cases offIn with
  | some q =>
    cases offOut with
    | some q' => exact absurd ⟨rfl, rfl⟩ hoffs
    | none =>
      have hsame : s.pos c.from_ = s.pos c.from_ + l.done := hout
      omega
  | none =>
    cases offOut with
    | some q' =>
      have hsame : s.pos c.from_ + l.done = s.pos c.from_ := hout
      omega
    | none =>
      -- what was written has moved the position too
      have htwice := @copyLoop_one_pos c want (placedBoth c none none cells s) hone
      rw [hpos, broughtBack_one hone, if_neg not_backOut_none, if_neg not_backIn_none] at hin
      rw [placedBoth_pos_one hone, hl, hin] at htwice
      have hsum : s.pos c.from_ + 2 * l.done ≤ s.pos c.from_ + l.done := htwice
      omega

/-- Where a copy within one description begins at the other offset, the byte there is not the one
that was to be copied. -/
theorem not_copySaid_of_ne (hone : c.from_ = c.into) (hsome : offOut.isSome = true)
    {a b : ℕ} (ha : startOf s c.from_ (offIn.map cells) = a)
    (hb : startOf s c.into (offOut.map cells) = b) (hab : a ≠ b) {l : Looped}
    (hl : copyLoop c want want (placedBoth c offIn offOut cells (s.marked a)) 0 = l)
    (hdone : l.done ≠ 0) (hfile : v.file = l.files.file) :
    ¬CopySaid c offIn offOut cells (s.marked a) l.done v := by
  intro h
  have hbegin : (placedBoth c offIn offOut cells (s.marked a)).pos c.from_ = b := by
    rw [placedBoth_pos_one hone, beginOne, if_pos hsome]
    exact hb
  have hleft := @copyLoop_one_byte c want (placedBoth c offIn offOut cells (s.marked a)) hone
  rw [hbegin, hl] at hleft
  have hbytes : a + l.done ≤ ((s.marked a).under c.env c.from_).size :=
    ha ▸ h.bytes.resolve_right hdone
  -- the byte that was to be copied is marked, and the one that is there is not
  have hmarked : ((s.marked a).under c.env c.from_).byte (a + 0) = 1 :=
    if_pos ⟨rfl, show a < ((s.marked a).under c.env c.from_).size by omega⟩
  have hplain : ((s.marked a).under c.env c.into).byte b = 0 := if_neg fun hb' => hab hb'.1.symm
  have hsaid := congrFun (hfile.symm.trans h.file) (c.env.fileOf c.into)
  have ha' : startOf (s.marked a) c.from_ (offIn.map cells) = a := ha
  have hb' : startOf (s.marked a) c.into (offOut.map cells) = b := hb
  rw [copiedTo, Function.update_self, ha', hb'] at hsaid
  have hbyte := FileBytes.byte_write_read ((s.marked a).under c.env c.into) b hbytes
    (Nat.pos_of_ne_zero hdone)
  rw [← hsaid, hmarked, Nat.add_zero] at hbyte
  rw [Files.under, hbyte] at hleft
  exact absurd (hleft.trans hplain) (by decide)

/-- Where it begins at the one offset, that byte is behind what was read. -/
theorem not_copySaid_of_eq (hone : c.from_ = c.into) (hsome : offOut.isSome = true) {b : ℕ}
    (ha : startOf s c.from_ (offIn.map cells) = b) (hb : startOf s c.into (offOut.map cells) = b)
    {l : Looped}
    (hl : copyLoop c want want (placedBoth c offIn offOut cells (s.marked b)) 0 = l)
    (hdone : l.done ≠ 0) (hfile : v.file = l.files.file) :
    ¬CopySaid c offIn offOut cells (s.marked b) l.done v := by
  intro h
  have hbegin : (placedBoth c offIn offOut cells (s.marked b)).pos c.from_ = b := by
    rw [placedBoth_pos_one hone, beginOne, if_pos hsome]
    exact hb
  generalize hT : placedBoth c offIn offOut cells (s.marked b) = t at hl hbegin
  have hunder : ∀ d, t.under c.env d = (s.marked b).under c.env d := fun d => by
    rw [← hT]
    rfl
  have hpos : 0 < c.roundWrites want t 0 := by
    rw [← hl] at hdone
    exact Nat.pos_of_ne_zero (mt copyLoop_done_eq_zero_iff.mpr hdone)
  have hwrites := roundWrites_le c want t 0
  have hreads := roundReads_le c want t 0
  have hfront := le_roundFront hone (u := t) (r := c.roundReads want t 0) (by omega) hreads
  have hagain := copyLoop_one_again hone hpos
  rw [hunder, hbegin] at hreads
  rw [hbegin] at hfront
  rw [hl, hunder, hbegin] at hagain
  generalize c.roundFront t (c.roundReads want t 0) = front at hfront hagain
  have hmarked : ((s.marked b).under c.env c.from_).byte b = 1 :=
    if_pos ⟨rfl, show b < ((s.marked b).under c.env c.from_).size by omega⟩
  have hplain : ∀ d, ((s.marked b).under c.env d).byte front = 0 := fun d =>
    if_neg fun hmark => by omega
  have hbytes : b + l.done ≤ ((s.marked b).under c.env c.from_).size :=
    ha ▸ h.bytes.resolve_right hdone
  have hsaid := congrFun (hfile.symm.trans h.file) (c.env.fileOf c.into)
  have ha' : startOf (s.marked b) c.from_ (offIn.map cells) = b := ha
  have hb' : startOf (s.marked b) c.into (offOut.map cells) = b := hb
  rw [copiedTo, Function.update_self, ha', hb'] at hsaid
  rw [Files.under, hsaid, hmarked] at hagain
  -- what is copied onto itself is what it was
  by_cases hin : front < b + l.done
  · have hbyte := FileBytes.byte_write_read ((s.marked b).under c.env c.into) b hbytes
      (i := front - b) (by omega)
    rw [show b + (front - b) = front by omega, hplain, hagain] at hbyte
    exact absurd hbyte (by decide)
  · rw [FileBytes.byte_write, FileBytes.length_read, if_neg (by omega), hplain] at hagain
    exact absurd hagain (by decide)

/-- **What is said of every contents asks that nothing is copied within one description.** -/
theorem idle_of_copySaid (hp : planOne c offIn offOut want cells s = p) (hone : c.from_ = c.into)
    (h : ∀ x, ∃ v, v.file = (copyLoop c want want
        (placedBoth c offIn offOut cells (s.marked x)) 0).files.file ∧
      v.pos = broughtBack c offIn offOut cells (s.marked x) (copyLoop c want want
        (placedBoth c offIn offOut cells (s.marked x)) 0).files.pos ∧
      CopySaid c offIn offOut cells (s.marked x)
        (copyLoop c want want (placedBoth c offIn offOut cells (s.marked x)) 0).done v) :
    p.written 0 = 0 := by
  have hidle : ∀ x,
      (copyLoop c want want (placedBoth c offIn offOut cells (s.marked x)) 0).done = 0 →
        p.written 0 = 0 := fun x hzero => by
    have hp' : planOne c offIn offOut want cells (s.marked x) = p := hp
    rw [← roundWrites_one hp' hone]
    exact copyLoop_done_eq_zero_iff.mp hzero
  by_cases hboth : offIn.isSome ∧ offOut.isSome
  · -- two offsets and one position: the mark is put where the copy was to begin
    by_contra hwritten
    by_cases hsame : startOf s c.from_ (offIn.map cells) = startOf s c.into (offOut.map cells)
    · obtain ⟨v, hfile, -, hcopied⟩ := h (startOf s c.into (offOut.map cells))
      exact not_copySaid_of_eq hone hboth.2 hsame rfl rfl (mt (hidle _) hwritten) hfile hcopied
    · obtain ⟨v, hfile, -, hcopied⟩ := h (startOf s c.from_ (offIn.map cells))
      exact not_copySaid_of_ne hone hboth.2 rfl rfl hsame rfl (mt (hidle _) hwritten) hfile hcopied
  · -- the positions tell, whatever is marked
    obtain ⟨v, -, hpos, hcopied⟩ := h 0
    exact hidle 0 (idle_of_offsets hone rfl hpos hcopied hboth)

end One

/-! ## The call -/

/-- **When the call does what it says**, of two descriptions and of one for both. -/
structure CopyKept (c : CopyEnds) (offIn offOut : Option ℕ) (want : ℕ) (cells : Cells) (s : Files) :
    Prop where
  /-- Where the output cannot be placed, the input is left where it was placed. -/
  refused : Placeable c.env s.seeks (offIn.map cells) →
    ¬Placeable c.env (s.seeks + seeksOf offIn.isSome) (offOut.map cells) →
      startOf s c.from_ (offIn.map cells) = s.pos c.from_
  apart : Placeable c.env s.seeks (offIn.map cells) →
    Placeable c.env (s.seeks + seeksOf offIn.isSome) (offOut.map cells) → c.from_ ≠ c.into →
      KeptApart c offIn offOut s (planApart c offIn offOut want cells s)
  one : Placeable c.env s.seeks (offIn.map cells) →
    Placeable c.env (s.seeks + seeksOf offIn.isSome) (offOut.map cells) → c.from_ = c.into →
      KeptOne c offIn offOut cells s (planOne c offIn offOut want cells s)

section Calls

variable {c : CopyEnds} {offIn offOut : Option ℕ} {cells : Cells} {s : Files} {want : ℕ}
  {file : ℕ → FileBytes}

theorem CopySaid.congr {n : ℕ} {u v : Files} (h : CopySaid c offIn offOut cells s n u)
    (hfile : v.file = u.file) (hpos : v.pos = u.pos) : CopySaid c offIn offOut cells s n v :=
  ⟨h.bytes, hfile.trans h.file, h.apart, by rw [hpos, h.posIn], by rw [hpos, h.posOut]⟩

/-- What is said of a call whose descriptions can be placed is said of its loop. -/
theorem said_iff_of_placeable (hin : Placeable c.env s.seeks (offIn.map cells))
    (hout : Placeable c.env (s.seeks + seeksOf offIn.isSome) (offOut.map cells)) :
    Said c offIn offOut cells s (copyFiles c offIn offOut want cells s) ↔
      ∃ v, v.file = (copyLoop c want want (placedBoth c offIn offOut cells s) 0).files.file ∧
        v.pos = broughtBack c offIn offOut cells s
          (copyLoop c want want (placedBoth c offIn offOut cells s) 0).files.pos ∧
        CopySaid c offIn offOut cells s
          (copyLoop c want want (placedBoth c offIn offOut cells s) 0).done v := by
  obtain ⟨v, hcall, hfile, hpos⟩ := copyFiles_of_placeable want rfl hin hout
  have hnone : (copyLoop c want want (placedBoth c offIn offOut cells s) 0).done = 0 →
      v.file = s.file := by
    intro hzero
    have hfirst := (copyLoop_first (copyLoop_done_eq_zero_iff.mp hzero)).1
    rw [hfile, hfirst.file, FileBytes.read_zero, FileBytes.write_nil, Files.under,
      Function.update_eq_self]
    rfl
  rw [hcall, said_iff_copySaid hnone]
  constructor
  · exact fun h => ⟨v, hfile, hpos, h⟩
  · rintro ⟨u, hfile', hpos', h⟩
    exact h.congr (hfile.trans hfile'.symm) (hpos.trans hpos'.symm)

theorem plan_holding (hsize : ∀ f, (file f).size = (s.file f).size) (a b : ℕ) :
    c.plan a b want (s.holding file) = c.plan a b want s := by
  unfold CopyEnds.plan
  rw [show ((s.holding file).under c.env c.from_).size = (s.under c.env c.from_).size from
    hsize _]
  rfl

/-- The condition is of the sizes and the positions. -/
theorem KeptApart.holding {p : CopyPlan} (h : KeptApart c offIn offOut s p)
    (hsize : ∀ f, (file f).size = (s.file f).size) :
    KeptApart c offIn offOut (s.holding file) p where
  apart := h.apart
  atEnd happends := (h.atEnd happends).imp_right (hsize _).trans
  whole := h.whole
  ordered := h.ordered
  backIn := h.backIn
  backOut := h.backOut

theorem KeptOne.holding {p : CopyPlan} (h : KeptOne c offIn offOut cells s p) :
    KeptOne c offIn offOut cells (s.holding file) p :=
  ⟨h.idle, h.placed, h.back⟩

/-- **The condition is enough.** -/
theorem said_of_copyKept (h : CopyKept c offIn offOut want cells s)
    (hsize : ∀ f, (file f).size = (s.file f).size) :
    Said c offIn offOut cells (s.holding file)
      (copyFiles c offIn offOut want cells (s.holding file)) := by
  by_cases hin : Placeable c.env s.seeks (offIn.map cells)
  · by_cases hout : Placeable c.env (s.seeks + seeksOf offIn.isSome) (offOut.map cells)
    · rw [said_iff_of_placeable (s := s.holding file) hin hout]
      refine ⟨{ s with
        file := (copyLoop c want want
          (placedBoth c offIn offOut cells (s.holding file)) 0).files.file
        pos := broughtBack c offIn offOut cells (s.holding file) (copyLoop c want want
          (placedBoth c offIn offOut cells (s.holding file)) 0).files.pos }, rfl, rfl, ?_⟩
      -- the plan is the same of every contents
      by_cases hone : c.from_ = c.into
      · have hkept := h.one hin hout hone
        have hp : planOne c offIn offOut want cells (s.holding file) =
          planOne c offIn offOut want cells s := plan_holding hsize _ _
        refine (copySaid_one_iff hp hone rfl ?_ ?_ hkept.idle).mpr hkept.holding <;> rfl
      · have hp : planApart c offIn offOut want cells (s.holding file) =
          planApart c offIn offOut want cells s := plan_holding hsize _ _
        exact copySaid_of_keptApart hp hone ((h.apart hin hout hone).holding hsize) rfl rfl rfl
    · obtain ⟨u, hcall, hpos⟩ := copyFiles_of_not_placeable_out (s := s.holding file) want
        hin hout
      have hsame : u.pos = s.pos := by
        rw [hpos]
        show Function.update s.pos c.from_ (startOf s c.from_ (offIn.map cells)) = s.pos
        rw [h.refused hin hout, Function.update_eq_self]
      rw [hcall]
      exact ⟨nofun, nofun, nofun, nofun, nofun,
        fun _ _ => ⟨rfl, congrFun hsame _, congrFun hsame _⟩⟩
  · obtain ⟨u, hcall, hpos⟩ := copyFiles_of_not_placeable (s := s.holding file) want hin
    rw [hcall]
    exact ⟨nofun, nofun, nofun, nofun, nofun, fun _ _ => ⟨rfl, congrFun hpos _, congrFun hpos _⟩⟩

/-- **The condition is needed**, where it is said of every contents. -/
theorem copyKept_of_said (h : ∀ file : ℕ → FileBytes, (∀ f, (file f).size = (s.file f).size) →
    Said c offIn offOut cells (s.holding file)
      (copyFiles c offIn offOut want cells (s.holding file))) :
    CopyKept c offIn offOut want cells s := by
  have hown : Said c offIn offOut cells s (copyFiles c offIn offOut want cells s) :=
    h s.file fun _ => rfl
  refine ⟨fun hin hout => ?_, fun hin hout hne => ?_, fun hin hout hone => ?_⟩
  · obtain ⟨u, hcall, hpos⟩ := copyFiles_of_not_placeable_out want hin hout
    rw [hcall] at hown
    have hkept := (hown.failed _ rfl).2.1
    rwa [hpos, Function.update_self] at hkept
  · obtain ⟨v, hfile, hpos, hcopied⟩ := (said_iff_of_placeable hin hout).mp hown
    have hend := atEnd_of_copySaid rfl hne rfl hfile hcopied
    refine keptApart_of_copySaid rfl hne rfl hfile hpos hcopied
      (ordered_of_copySaid rfl hne hend fun x => ?_)
    obtain ⟨v, hfile, -, hcopied⟩ := (said_iff_of_placeable (s := s.marked x) hin hout).mp
      (h (fun f => (s.file f).marked x) fun _ => rfl)
    exact ⟨v, hfile, hcopied⟩
  · have hidle := idle_of_copySaid rfl hone fun x =>
      (said_iff_of_placeable (s := s.marked x) hin hout).mp
        (h (fun f => (s.file f).marked x) fun _ => rfl)
    obtain ⟨v, hfile, hpos, hcopied⟩ := (said_iff_of_placeable hin hout).mp hown
    exact (copySaid_one_iff rfl hone rfl hfile hpos hidle).mp hcopied

end Calls

/-- The two descriptions of a call. -/
def endsOf (env : FileEnv) (w : PortState) (i o : Fin okmMaxDesc) : CopyEnds :=
  ⟨env, i, o, hasFlag (w.desc i).flags oNonblock, hasFlag (w.desc o).flags oNonblock⟩

/-- **When `copy_file_range` copies what it says it copied**, of two descriptions of files or of one
for both, whatever the files hold: exactly where it is refused for its flags, is asked for nothing,
or its rounds and seeks are as the condition has them. -/
theorem copyFileRange_said_iff {env : FileEnv} {w : PortState} {c : CopyCall}
    {i o : Fin okmMaxDesc} (hin : w.okmDescOf c.fdIn = some i) (hout : w.okmDescOf c.fdOut = some o)
    (hkindIn : (w.desc i).kind = .file) (hkindOut : (w.desc o).kind = .file) (cells : Cells)
    (s : Files) :
    (∀ file : ℕ → FileBytes, (∀ f, (file f).size = (s.file f).size) →
      Said (endsOf env w i o) c.offIn c.offOut cells (s.holding file)
        (copyFileRange env w cells (s.holding file) c)) ↔
      c.flags ≠ 0 ∨ c.want = 0 ∨ CopyKept (endsOf env w i o) c.offIn c.offOut c.want cells s := by
  unfold copyFileRange
  by_cases hflags : c.flags ≠ 0
  · simp only [if_pos hflags]
    exact iff_of_true (fun _ _ => ⟨nofun, nofun, nofun, nofun, nofun, fun _ _ => ⟨rfl, rfl, rfl⟩⟩)
      (Or.inl hflags)
  by_cases hwant : c.want = 0
  · simp only [if_neg hflags, if_pos hwant]
    refine iff_of_true (fun file _ => ?_) (Or.inr (Or.inl hwant))
    -- nothing is wanted and nothing is touched
    refine ⟨fun n hn => ?_, fun n hn => ?_, fun n hn p => ?_, fun n hn => ?_, fun n hn => ?_, nofun⟩
    · exact Or.inr (Except.ok.inj hn).symm
    · rw [← Except.ok.inj hn, copiedTo_zero]
    · rw [← Except.ok.inj hn, Nat.cast_zero, Int.add_zero, ite_self]
    · rw [← Except.ok.inj hn, Nat.add_zero, ite_self]
    · rw [← Except.ok.inj hn, Nat.add_zero, ite_self]
  have hfiles : ¬((w.desc i).kind ≠ .file ∨ (w.desc o).kind ≠ .file) := by
    simp [hkindIn, hkindOut]
  simp only [if_neg hflags, if_neg hwant, hin, hout, if_neg hfiles]
  rw [or_iff_right hflags, or_iff_right hwant]
  exact ⟨copyKept_of_said, fun h _ hsize => said_of_copyKept h hsize⟩

/-- A table in which numbers 3 and 4 are two files. -/
def twoFilesTable : PortState :=
  (((PortState.okmTableInit 1 .supplied).okmFdBind 1 3 .file 70 71 0 oRdwr).1.okmFdBind 1 4 .file 72
    73 0 oRdwr).1

/-- An environment of two files that moves three bytes at most, and in which every transfer that
`full` names finds no space. -/
def spacious (full : ℕ → Bool) : FileEnv where
  fileOf := fun d => d.val
  appends := fun _ => false
  answer := fun n => if full n then .fails .noSpace else .moves 3
  seekFails := fun _ => none
  bounded := false

/-- The two files: five bytes, and none. -/
def fiveAndNone : Files where
  file := fun f =>
    if f = 3 then FileBytes.empty.write 0 [10, 11, 12, 13, 14]
    else .empty
  pos := fun _ => 0

/-- Of four bytes that are read from the second on, three are written; the position of the input is
put back. -/
theorem copyFileRange_said_offset :
    (copyFileRange (spacious fun _ => false) twoFilesTable (fun _ => 1) fiveAndNone
      ⟨3, some 0, 4, none, 4, 0⟩).result = .ok 3 ∧
    ∀ file : ℕ → FileBytes, (∀ f, (file f).size = (fiveAndNone.file f).size) →
      Said (endsOf (spacious fun _ => false) twoFilesTable ⟨3, by decide⟩ ⟨4, by decide⟩) (some 0)
        none (fun _ => 1) (fiveAndNone.holding file)
        (copyFileRange (spacious fun _ => false) twoFilesTable (fun _ => 1)
          (fiveAndNone.holding file) ⟨3, some 0, 4, none, 4, 0⟩) := by
  refine ⟨by decide +kernel, (copyFileRange_said_iff (c := ⟨3, some 0, 4, none, 4, 0⟩)
    (by decide +kernel) (by decide +kernel) (by decide +kernel) (by decide +kernel) (fun _ => 1)
    fiveAndNone).mpr (Or.inr (Or.inr ⟨fun _ hrefused => ?_, fun _ _ _ => ?_, nofun⟩))⟩
  · exact absurd nofun hrefused
  · exact {
      apart := nofun
      atEnd := nofun
      whole := nofun
      ordered := nofun
      backIn := fun _ hback => absurd ⟨rfl, rfl⟩ hback
      backOut := nofun }

/-- A write that finds no space is reported, and the position of the input has moved. -/
theorem copyFileRange_not_said_full :
    ¬Said (endsOf (spacious (· = 1)) twoFilesTable ⟨3, by decide⟩ ⟨4, by decide⟩) none none
      (fun _ => 0) fiveAndNone (copyFileRange (spacious (· = 1)) twoFilesTable (fun _ => 0)
        fiveAndNone ⟨3, none, 4, none, 4, 0⟩) := by
  intro h
  have hresult : (copyFileRange (spacious (· = 1)) twoFilesTable (fun _ => 0) fiveAndNone
      ⟨3, none, 4, none, 4, 0⟩).result = .error .enospc := by decide +kernel
  have hmoved : (copyFileRange (spacious (· = 1)) twoFilesTable (fun _ => 0) fiveAndNone
      ⟨3, none, 4, none, 4, 0⟩).files.pos ⟨3, by decide⟩ = 4 := by decide +kernel
  have hkept := (h.failed _ hresult).2.1
  rw [show (endsOf (spacious (· = 1)) twoFilesTable ⟨3, by decide⟩ ⟨4, by decide⟩).from_ =
    ⟨3, by decide⟩ from rfl, hmoved] at hkept
  cases hkept

end OpenkalMusl
