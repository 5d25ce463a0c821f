import OpenkalMusl.Files.CopyRange

/-!
# The rounds of `copy_file_range`

What each round of a copy reads and writes depends on the sizes of the files, the positions and what
the environment answers, and on no byte of the files. These numbers are the plan of the copy. Two
descriptions follow it to its last round; what they copy is what was there before, unless the two
are of one file and a later round reads what an earlier one wrote.

## Main definitions

* `CopyPlan`: the rounds, by their numbers
* `Staged`: the files before a round
* `CopyPlan.OrderedAt`: what a round copies was there before the call

## Main results

* `Staged.round`: each round is as the plan has it
* `Copying.round`: what it copies
* `copyLoop_staged`: the loop follows the plan to its last round
-/

namespace OpenkalMusl

/-- The rounds of a copy by their numbers: what the environment offers to each read and takes of
each write, how much is wanted, where the copy begins and ends, how long the input is, and whether
the two are one file. -/
structure CopyPlan where
  offers : ℕ → ℕ
  takes : ℕ → ℕ
  want : ℕ
  a : ℕ
  b : ℕ
  size : ℕ
  same : Bool

namespace CopyPlan

variable (p : CopyPlan)

/-- Where the input ends once `n` bytes were written. -/
def ends (n : ℕ) : ℕ := if p.same = true ∧ 0 < n then max p.size (p.b + n) else p.size

/-- What a round reads once `n` bytes were copied. -/
def reads (k n : ℕ) : ℕ :=
  min (min (min (p.want - n) copyBlock) (p.offers k)) (p.ends n - (p.a + n))

/-- What was read before a round. -/
def copied : ℕ → ℕ
  | 0 => 0
  | k + 1 => copied k + p.reads k (copied k)

/-- What a round reads. -/
def brought (k : ℕ) : ℕ := p.reads k (p.copied k)

/-- What it writes of that. -/
def written (k : ℕ) : ℕ := min (p.brought k) (p.takes k)

/-- It reads something and writes all of it. -/
def Whole (k : ℕ) : Prop := 0 < p.brought k ∧ p.brought k ≤ p.takes k

/-- The rounds before it are whole, so that there is such a round. -/
def Reached (k : ℕ) : Prop := ∀ j < k, p.Whole j

/-- It is the last. -/
def Last (k : ℕ) : Prop := p.Reached k ∧ ¬p.Whole k

variable {p}

theorem copied_succ (k : ℕ) : p.copied (k + 1) = p.copied k + p.brought k := rfl

theorem Reached.succ {k : ℕ} (h : p.Reached k) (hwhole : p.Whole k) : p.Reached (k + 1) := by
  intro j hj
  rcases Nat.lt_succ_iff_lt_or_eq.mp hj with hj | rfl
  · exact h j hj
  · exact hwhole

theorem written_of_whole {k : ℕ} (h : p.Whole k) : p.written k = p.brought k :=
  Nat.min_eq_left h.2

theorem Last.unique {k k' : ℕ} (h : p.Last k) (h' : p.Last k') : k = k' := by
  rcases Nat.lt_trichotomy k k' with hlt | heq | hlt
  · exact absurd (h'.1 k hlt) h.2
  · exact heq
  · exact absurd (h.1 k' hlt) h'.2

/-- A round that follows another comes after something was copied. -/
theorem Reached.copied_pos {k : ℕ} (h : p.Reached k) (hk : 0 < k) : 0 < p.copied k := by
  obtain ⟨j, rfl⟩ := Nat.exists_eq_succ_of_ne_zero hk.ne'
  have hwhole := h j (Nat.lt_succ_self j)
  rw [copied_succ]
  exact Nat.add_pos_right _ hwhole.1

theorem Reached.written_zero {k : ℕ} (h : p.Reached k) (hk : 0 < k) : 0 < p.written 0 := by
  have hwhole := h 0 hk
  rw [written_of_whole hwhole]
  exact hwhole.1

theorem Reached.le_last {k k' : ℕ} (h : p.Reached k) (h' : p.Last k') : k ≤ k' := by
  by_contra hlt
  exact h'.2 (h k' (not_le.mp hlt))

theorem copied_mono : Monotone p.copied :=
  monotone_nat_of_le_succ fun k => by
    rw [copied_succ]
    exact Nat.le_add_right _ _

/-- What a round wrote was copied before the rounds that follow it. -/
theorem Reached.copied_add_written_le {j k : ℕ} (h : p.Reached j) (hlt : k < j) :
    p.copied k + p.written k ≤ p.copied j := by
  rw [written_of_whole (h k hlt), ← copied_succ]
  exact copied_mono hlt

theorem ends_zero : p.ends 0 = p.size := if_neg fun h => Nat.lt_irrefl 0 h.2

theorem ends_of_apart (h : p.same = false) (n : ℕ) : p.ends n = p.size :=
  if_neg fun hs => by rw [h] at hs; cases hs.1

/-- Of one file, what is written behind its end makes it longer. -/
theorem ends_of_lt (h : p.same = true) {n m : ℕ} (hlt : n < m) :
    max (p.ends n) (p.b + m) = p.ends m := by
  unfold ends
  rw [if_pos (show p.same = true ∧ 0 < m from ⟨h, by omega⟩)]
  split_ifs <;> omega

theorem copied_zero : p.copied 0 = 0 := rfl

end CopyPlan

/-- The plan of a copy from `a` to `b`. -/
def CopyEnds.plan (c : CopyEnds) (a b want : ℕ) (s : Files) : CopyPlan where
  offers k := c.offers (s.transfers + 2 * k)
  takes k := c.takes (s.transfers + 2 * k + 1)
  want := want
  a := a
  b := b
  size := (s.under c.env c.from_).size
  same := decide (c.env.fileOf c.from_ = c.env.fileOf c.into)

namespace FileBytes

variable (f : FileBytes) (p : ℕ)

theorem size_write_of_ne {bytes : List UInt8} (h : bytes ≠ []) :
    (f.write p bytes).size = max f.size (p + bytes.length) := if_neg h

theorem byte_write (bytes : List UInt8) (i : ℕ) : (f.write p bytes).byte i =
    if p ≤ i ∧ i < p + bytes.length then bytes[i - p]?.getD 0 else f.byte i := rfl

theorem size_write_read {g : FileBytes} {a n : ℕ} (hn : 0 < n) (hbound : a + n ≤ g.size) :
    (f.write p (g.read a n)).size = max f.size (p + n) := by
  have hlength : (g.read a n).length = n := by
    rw [length_read]
    omega
  have hne : g.read a n ≠ [] := List.ne_nil_of_length_pos (by omega)
  rw [size_write_of_ne f p hne, hlength]

/-- A byte that is copied. -/
theorem byte_write_read {g : FileBytes} {a n : ℕ} (hbound : a + n ≤ g.size) {i : ℕ} (hi : i < n) :
    (f.write p (g.read a n)).byte (p + i) = g.byte (a + i) := by
  have hlength : (g.read a n).length = n := by
    rw [length_read]
    omega
  rw [byte_write, hlength, if_pos (by omega), Nat.add_sub_cancel_left,
    List.getElem?_eq_getElem (by omega), Option.getD_some, getElem_read]

/-- A byte before the place. -/
theorem byte_write_of_lt {bytes : List UInt8} {i : ℕ} (hi : i < p) :
    (f.write p bytes).byte i = f.byte i := by
  rw [byte_write, if_neg (by omega)]

end FileBytes

/-! ## The rounds follow the plan -/

/-- What is appended to a file comes at its end, which is where the copy is to go. -/
def AtEnd (c : CopyEnds) (s : Files) (p : CopyPlan) : Prop :=
  c.env.appends c.into = true → p.written 0 = 0 ∨ (s.under c.env c.into).size = p.b

/-- The files before a round that is reached. -/
structure Staged (c : CopyEnds) (s : Files) (p : CopyPlan) (k : ℕ) (u : Files) : Prop where
  reached : p.Reached k
  transfers : u.transfers = s.transfers + 2 * k
  posIn : u.pos c.from_ = p.a + p.copied k
  posOut : u.pos c.into = p.b + p.copied k
  sizeIn : (u.under c.env c.from_).size = p.ends (p.copied k)
  sizeOut : c.env.appends c.into = true → 0 < p.written 0 →
    (u.under c.env c.into).size = p.b + p.copied k

section Stages

variable {c : CopyEnds} {s : Files} {p : CopyPlan} {a b want k : ℕ} {u v : Files}

theorem size_of_plan (hp : c.plan a b want s = p) : p.size = (s.under c.env c.from_).size := by
  subst hp
  rfl

theorem same_iff_of_plan (hp : c.plan a b want s = p) :
    p.same = true ↔ c.env.fileOf c.from_ = c.env.fileOf c.into := by
  subst hp
  exact decide_eq_true_iff

/-- Two descriptions of one file see the same. -/
theorem under_of_one (h : c.env.fileOf c.from_ = c.env.fileOf c.into) (t : Files) :
    t.under c.env c.from_ = t.under c.env c.into := by
  rw [Files.under, h, Files.under]

theorem Staged.reads_eq (hu : Staged c s p k u) (hp : c.plan a b want s = p) :
    c.roundReads want u (p.copied k) = p.brought k := by
  rw [CopyEnds.roundReads, hu.transfers, hu.posIn, hu.sizeIn]
  subst hp
  rfl

theorem Staged.writes_eq (hu : Staged c s p k u) (hp : c.plan a b want s = p) :
    c.roundWrites want u (p.copied k) = p.written k := by
  rw [CopyEnds.roundWrites, hu.reads_eq hp, hu.transfers]
  subst hp
  rfl

theorem Staged.whole_iff (hu : Staged c s p k u) (hp : c.plan a b want s = p) :
    c.RoundWhole want u (p.copied k) ↔ p.Whole k := by
  rw [CopyEnds.RoundWhole, hu.reads_eq hp, hu.transfers]
  subst hp
  rfl

/-- What a round writes goes behind what was copied. -/
theorem Staged.front_eq (hu : Staged c s p k u) (hne : c.from_ ≠ c.into) (hw : 0 < p.written k)
    (r : ℕ) : c.roundFront u r = p.b + p.copied k := by
  have hfirst : 0 < p.written 0 := by
    rcases Nat.eq_zero_or_pos k with rfl | hk
    · exact hw
    · exact hu.reached.written_zero hk
  unfold CopyEnds.roundFront Files.front
  split_ifs with happends
  · exact hu.sizeOut happends hfirst
  · rw [Files.moveTo_of_ne hne.symm, hu.posOut]

/-- **Each round is as the plan has it.** -/
theorem Staged.round (hu : Staged c s p k u) (hp : c.plan a b want s = p)
    (hne : c.from_ ≠ c.into) (h : CopyPassed c u v (p.brought k) (p.written k)) :
    v.pos c.from_ = p.a + p.copied (k + 1) ∧ v.pos c.into = p.b + p.copied k + p.written k ∧
      (p.Whole k → v.transfers = u.transfers + 2 → Staged c s p (k + 1) v) := by
  have hin : v.pos c.from_ = p.a + p.copied (k + 1) := by
    have hmoved : u.pos c.from_ + p.brought k = p.a + p.copied (k + 1) := by
      rw [hu.posIn, CopyPlan.copied_succ, Nat.add_assoc]
    rw [h.pos]
    split_ifs
    · rw [Function.update_self, hmoved]
    · rw [Function.update_of_ne hne, Function.update_self, hmoved]
  have hout : v.pos c.into = p.b + p.copied k + p.written k := by
    rw [h.pos]
    split_ifs with hzero
    · rw [Function.update_of_ne hne.symm, hu.posOut, hzero, Nat.add_zero]
    · rw [Function.update_self, hu.front_eq hne (Nat.pos_of_ne_zero hzero)]
  refine ⟨hin, hout, fun hwhole htransfers => ?_⟩
  have hwritten := CopyPlan.written_of_whole hwhole
  have hpos : 0 < p.written k := hwritten ▸ hwhole.1
  have hfront := hu.front_eq hne hpos (p.brought k)
  -- what is written was in the input
  have hbound : u.pos c.from_ + p.written k ≤ (u.under c.env c.from_).size := by
    rw [hu.posIn, hu.sizeIn]
    have hle : p.brought k ≤ p.ends (p.copied k) - (p.a + p.copied k) := Nat.min_le_right _ _
    omega
  have hsize : (v.under c.env c.into).size =
      max (u.under c.env c.into).size (p.b + p.copied (k + 1)) := by
    rw [Files.under, h.file, Function.update_self, hfront,
      FileBytes.size_write_read _ _ hpos hbound, CopyPlan.copied_succ, hwritten, Nat.add_assoc]
  exact {
    reached := hu.reached.succ hwhole
    transfers := by
      rw [htransfers, hu.transfers]
      omega
    posIn := hin
    posOut := by rw [hout, hwritten, CopyPlan.copied_succ, Nat.add_assoc]
    sizeIn := by
      have hgrows : p.copied k < p.copied (k + 1) := by
        rw [CopyPlan.copied_succ]
        exact Nat.lt_add_of_pos_right hwhole.1
      by_cases hsame : c.env.fileOf c.from_ = c.env.fileOf c.into
      · have hone := (same_iff_of_plan hp).mpr hsame
        rw [under_of_one hsame, hsize, ← under_of_one hsame, hu.sizeIn,
          CopyPlan.ends_of_lt hone hgrows]
      · have hapart := Bool.eq_false_of_not_eq_true (mt (same_iff_of_plan hp).mp hsame)
        rw [Files.under, h.file, Function.update_of_ne hsame, ← Files.under, hu.sizeIn,
          CopyPlan.ends_of_apart hapart, CopyPlan.ends_of_apart hapart]
    sizeOut := fun happends hfirst => by
      rw [hsize, hu.sizeOut happends hfirst, CopyPlan.copied_succ]
      omega }

/-- **The loop follows the plan to its last round**, and what every whole round keeps holds where
that one begins. -/
theorem copyLoop_staged {Q : ℕ → Files → Prop} (hp : c.plan a b want s = p)
    (hne : c.from_ ≠ c.into) (hu : Staged c s p 0 u) (hq : Q 0 u)
    (keep : ∀ k u v, Staged c s p k u → p.Whole k → Q k u →
      CopyPassed c u v (p.brought k) (p.written k) → Q (k + 1) v) :
    ∃ k t, p.Last k ∧ Staged c s p k t ∧ Q k t ∧
      CopyPassed c t (copyLoop c want want u 0).files (p.brought k) (p.written k) ∧
      (copyLoop c want want u 0).done = p.copied k + p.written k := by
  -- the invariant carries the number of the round with the files
  have hlast := @copyLoop_last c want 0 u
    (fun t done => ∃ k, done = p.copied k ∧ Staged c s p k t ∧ Q k t) ?_ want
    ⟨0, rfl, hu, hq⟩ (Nat.le_add_left _ _)
  · obtain ⟨t, _, ⟨k, rfl, ht, hqt⟩, hwhole, hpassed, hdone⟩ := hlast
    rw [ht.reads_eq hp, ht.writes_eq hp] at hpassed
    rw [ht.writes_eq hp] at hdone
    exact ⟨k, t, ⟨ht.reached, mt (ht.whole_iff hp).mpr hwhole⟩, ht, hqt, hpassed, hdone⟩
  · rintro t v _ ⟨k, rfl, ht, hqt⟩ hwhole hpassed htransfers
    have hwhole' := (ht.whole_iff hp).mp hwhole
    rw [ht.reads_eq hp, ht.writes_eq hp] at hpassed
    rw [ht.reads_eq hp]
    exact ⟨k + 1, rfl, (ht.round hp hne hpassed).2.2 hwhole' htransfers,
      keep k t v ht hwhole' hqt hpassed⟩

/-- Where the loop leaves the positions, and how much it copied. -/
theorem copyLoop_lands (hp : c.plan a b want s = p) (hne : c.from_ ≠ c.into)
    (hu : Staged c s p 0 u) :
    ∃ k, p.Last k ∧ (copyLoop c want want u 0).done = p.copied k + p.written k ∧
      (copyLoop c want want u 0).files.pos c.from_ = p.a + p.copied (k + 1) ∧
      (copyLoop c want want u 0).files.pos c.into = p.b + p.copied k + p.written k := by
  obtain ⟨k, t, hlast, ht, -, hpassed, hdone⟩ :=
    copyLoop_staged (Q := fun _ _ => True) hp hne hu trivial fun _ _ _ _ _ _ _ => trivial
  obtain ⟨hin, hout, -⟩ := ht.round hp hne hpassed
  exact ⟨k, hlast, hdone, hin, hout⟩

/-! ## What is copied -/

/-- Within one file and forwards, what a later round copies lies before the output and was there
before the call. -/
def CopyPlan.OrderedAt (p : CopyPlan) (k : ℕ) : Prop :=
  p.same = true → p.a < p.b → 0 < k → p.Reached k → 0 < p.written k →
    p.a + p.copied k + p.written k ≤ min p.b p.size

namespace FileBytes

theorem read_append (f : FileBytes) (p n m : ℕ) :
    f.read p n ++ f.read (p + n) m = f.read p (n + m) := by
  rw [read_eq_take_rest, read_eq_take_rest, read_eq_take_rest, List.take_add, drop_rest]

/-- Two parts of a file, written one behind the other. -/
theorem write_read_append (f g : FileBytes) {a b n : ℕ} (m : ℕ) (hbound : a + n ≤ g.size) :
    (f.write b (g.read a n)).write (b + n) (g.read (a + n) m) = f.write b (g.read a (n + m)) := by
  have hlength : (g.read a n).length = n := by
    rw [length_read]
    omega
  have hwrite := f.write_write b (g.read a n) (g.read (a + n) m)
  rw [hlength] at hwrite
  rw [hwrite, read_append]

/-- What was not written over reads as before. -/
theorem read_write_of_apart (f : FileBytes) (p : ℕ) (bytes : List UInt8) {q n : ℕ}
    (hbound : q + n ≤ f.size) (hapart : q + n ≤ p ∨ p + bytes.length ≤ q) :
    (f.write p bytes).read q n = f.read q n := by
  have hsize : f.size ≤ (f.write p bytes).size := by
    show f.size ≤ if bytes = [] then f.size else max f.size (p + bytes.length)
    split_ifs <;> omega
  refine List.ext_getElem ?_ fun i hi hi' => ?_
  · rw [length_read, length_read]
    omega
  · rw [length_read] at hi'
    rw [getElem_read, getElem_read, byte_write, if_neg (by omega)]

end FileBytes

/-- The files once the bytes of a number of rounds were copied. -/
structure Copying (c : CopyEnds) (s : Files) (p : CopyPlan) (n : ℕ) (u : Files) : Prop where
  file : u.file = copiedTo c p.a p.b n s
  bound : n = 0 ∨ p.a + n ≤ p.size

/-- What a round writes was in the input before the call, and is not behind what was written. -/
theorem CopyPlan.OrderedAt.source (hord : p.OrderedAt k) (hreached : p.Reached k)
    (hpos : 0 < p.written k) :
    p.a + p.copied k + p.written k ≤ p.size ∧
      (p.same = true → p.copied k = 0 ∨ p.a + p.copied k + p.written k ≤ p.b ∨ p.b ≤ p.a) := by
  have hbrought : p.written k ≤ p.ends (p.copied k) - (p.a + p.copied k) :=
    (Nat.min_le_left _ _).trans (Nat.min_le_right _ _)
  by_cases hsame : p.same = true
  · rcases Nat.eq_zero_or_pos k with rfl | hk
    · rw [CopyPlan.copied_zero, CopyPlan.ends_zero] at hbrought
      rw [CopyPlan.copied_zero]
      exact ⟨by omega, fun _ => Or.inl rfl⟩
    · by_cases hlt : p.a < p.b
      · have hle := hord hsame hlt hk hreached hpos
        exact ⟨by omega, fun _ => Or.inr (Or.inl (by omega))⟩
      · -- backwards the output does not reach what is still to be read
        have hends : p.ends (p.copied k) = max p.size (p.b + p.copied k) :=
          if_pos ⟨hsame, hreached.copied_pos hk⟩
        rw [hends] at hbrought
        exact ⟨by omega, fun _ => Or.inr (Or.inr (by omega))⟩
  · rw [CopyPlan.ends_of_apart (Bool.eq_false_of_not_eq_true hsame)] at hbrought
    exact ⟨by omega, fun h => absurd h hsame⟩

/-- Where a round reads, the file is as it was before the call. -/
theorem Copying.read_eq (hp : c.plan a b want s = p) (hcopying : Copying c s p (p.copied k) u)
    (hsource : p.a + p.copied k + p.written k ≤ p.size)
    (hapart : p.same = true →
      p.copied k = 0 ∨ p.a + p.copied k + p.written k ≤ p.b ∨ p.b ≤ p.a) :
    (u.under c.env c.from_).read (p.a + p.copied k) (p.written k) =
      (s.under c.env c.from_).read (p.a + p.copied k) (p.written k) := by
  by_cases hsame : c.env.fileOf c.from_ = c.env.fileOf c.into
  · rw [under_of_one hsame, Files.under, hcopying.file, copiedTo, Function.update_self,
      ← under_of_one hsame]
    rcases hapart ((same_iff_of_plan hp).mpr hsame) with hzero | happart
    · rw [hzero, FileBytes.read_zero, FileBytes.write_nil]
    · refine FileBytes.read_write_of_apart _ _ _ (size_of_plan hp ▸ hsource) ?_
      rw [FileBytes.length_read]
      omega
  · rw [Files.under, hcopying.file, copiedTo, Function.update_of_ne hsame, ← Files.under]

/-- **What a round reads and writes is what was there before the call.** -/
theorem Copying.round (hp : c.plan a b want s = p) (hne : c.from_ ≠ c.into) (hord : p.OrderedAt k)
    (hu : Staged c s p k u) (hcopying : Copying c s p (p.copied k) u)
    (h : CopyPassed c u v (p.brought k) (p.written k)) :
    Copying c s p (p.copied k + p.written k) v := by
  rcases Nat.eq_zero_or_pos (p.written k) with hzero | hpos
  · -- nothing is written
    rw [hzero] at h ⊢
    refine ⟨?_, hcopying.bound⟩
    rw [h.file, FileBytes.read_zero, FileBytes.write_nil, Files.under, Function.update_eq_self]
    exact hcopying.file
  · obtain ⟨hsource, hapart⟩ := hord.source hu.reached hpos
    have hbound : p.a + p.copied k ≤ (s.under c.env c.from_).size := by
      rw [← size_of_plan hp]
      omega
    refine ⟨?_, Or.inr (by omega)⟩
    calc v.file = Function.update u.file (c.env.fileOf c.into)
          ((u.under c.env c.into).write (p.b + p.copied k)
            ((s.under c.env c.from_).read (p.a + p.copied k) (p.written k))) := by
          rw [h.file, hu.front_eq hne hpos, hu.posIn, hcopying.read_eq hp hsource hapart]
      _ = copiedTo c p.a p.b (p.copied k + p.written k) s := by
          rw [Files.under, hcopying.file, copiedTo, Function.update_self, Function.update_idem,
            copiedTo, FileBytes.write_read_append _ _ _ hbound]

/-- A byte before what was copied is left alone by the rounds that follow. -/
theorem Staged.byte_eq (hu : Staged c s p k u) (hne : c.from_ ≠ c.into)
    (h : CopyPassed c u v (p.brought k) (p.written k)) {y : ℕ} (hy : y < p.b + p.copied k) :
    (v.under c.env c.into).byte y = (u.under c.env c.into).byte y := by
  rw [Files.under, h.file, Function.update_self]
  rcases Nat.eq_zero_or_pos (p.written k) with hzero | hpos
  · rw [hzero, FileBytes.read_zero, FileBytes.write_nil]
  · rw [hu.front_eq hne hpos]
    exact FileBytes.byte_write_of_lt _ _ hy

/-- A round that reads what was written writes it on. -/
theorem Copying.byte_again (hp : c.plan a b want s = p) (hne : c.from_ ≠ c.into)
    (hu : Staged c s p k u) (hcopying : Copying c s p (p.copied k) u)
    (h : CopyPassed c u v (p.brought k) (p.written k)) (hsame : p.same = true) {x : ℕ}
    (hread : p.a + p.copied k ≤ x) (hread' : x < p.a + p.copied k + p.written k) (hx : p.b ≤ x)
    (hx' : x < p.b + p.copied k) :
    (v.under c.env c.into).byte (p.b + (x - p.a)) =
      (s.under c.env c.from_).byte (p.a + (x - p.b)) := by
  have hone := (same_iff_of_plan hp).mp hsame
  have hbound : p.a + p.copied k ≤ (s.under c.env c.from_).size := by
    have hcases := hcopying.bound
    rw [← size_of_plan hp]
    omega
  have hbound' : p.a + p.copied k + p.written k ≤ (u.under c.env c.from_).size := by
    have hle : p.written k ≤ p.ends (p.copied k) - (p.a + p.copied k) :=
      (Nat.min_le_left _ _).trans (Nat.min_le_right _ _)
    rw [hu.sizeIn]
    omega
  have hplace : p.b + (x - p.a) = p.b + p.copied k + (x - p.a - p.copied k) := by omega
  have hplace' : p.a + p.copied k + (x - p.a - p.copied k) = p.b + (x - p.b) := by omega
  calc (v.under c.env c.into).byte (p.b + (x - p.a))
      = (u.under c.env c.from_).byte (p.b + (x - p.b)) := by
        rw [Files.under, h.file, Function.update_self, hu.front_eq hne (by omega), hu.posIn,
          hplace, FileBytes.byte_write_read _ _ hbound' (by omega), hplace']
    _ = (s.under c.env c.from_).byte (p.a + (x - p.b)) := by
        rw [under_of_one hone u, Files.under, hcopying.file, copiedTo, Function.update_self,
          FileBytes.byte_write_read _ _ hbound (by omega)]

end Stages

/-! ## The first round -/

section First

variable {c : CopyEnds} {want : ℕ} {t : Files}

/-- Where the first round writes nothing, it is the only one. -/
theorem copyLoop_first (h : c.roundWrites want t 0 = 0) :
    CopyPassed c t (copyLoop c want want t 0).files (c.roundReads want t 0) 0 ∧
      (copyLoop c want want t 0).done = 0 := by
  have hwhole : ¬c.RoundWhole want t 0 := by
    rintro ⟨hpos, hle⟩
    rw [CopyEnds.roundWrites, Nat.min_eq_left hle] at h
    omega
  obtain ⟨u, d, ⟨rfl, rfl⟩, -, hpassed, hdone⟩ := @copyLoop_last c want 0 t
    (fun u d => u = t ∧ d = 0) (fun u v d hu hr => by
      obtain ⟨rfl, rfl⟩ := hu
      exact absurd hr hwhole) want ⟨rfl, rfl⟩ (Nat.le_add_left _ _)
  rw [h] at hpassed hdone
  exact ⟨hpassed, hdone⟩

/-- Something is copied exactly where the first round writes something. -/
theorem copyLoop_done_eq_zero_iff :
    (copyLoop c want want t 0).done = 0 ↔ c.roundWrites want t 0 = 0 := by
  refine ⟨fun hdone => ?_, fun h => (copyLoop_first h).2⟩
  by_contra hpos
  -- nothing done means that the last round is the first
  obtain ⟨u, d, hu, -, -, hdone'⟩ := @copyLoop_last c want 0 t
    (fun u d => d = 0 → u = t) (fun u v d hu hwhole hpassed _ hzero => by
      have hreads := hwhole.1
      omega) want (fun _ => rfl) (Nat.le_add_left _ _)
  have hd : d = 0 := by omega
  rw [hu hd, hd] at hdone'
  omega

/-- What an output that appends is given makes its file longer. -/
theorem copyLoop_appends (happends : c.env.appends c.into = true) :
    ((copyLoop c want want t 0).files.under c.env c.into).size =
      (t.under c.env c.into).size + (copyLoop c want want t 0).done := by
  refine copyLoop_keeps
    (P := fun u d => (u.under c.env c.into).size = (t.under c.env c.into).size + d)
    (fun u v d hu hpassed => ?_) (Nat.add_zero _).symm (Nat.le_add_left _ _)
  have hbound : c.roundWrites want u d ≤ (u.under c.env c.from_).size - u.pos c.from_ :=
    (Nat.min_le_left _ _).trans (Nat.min_le_right _ _)
  have hlength : ((u.under c.env c.from_).read (u.pos c.from_) (c.roundWrites want u d)).length =
      c.roundWrites want u d := by
    rw [FileBytes.length_read]
    omega
  have hfront : c.roundFront u (c.roundReads want u d) = (u.under c.env c.into).size := by
    rw [CopyEnds.roundFront, Files.front, if_pos happends]
    rfl
  rw [Files.under, hpassed.file, Function.update_self, hfront, FileBytes.size_write_end, hlength,
    hu, Nat.add_assoc]

end First

/-! ## One description -/

section One

variable {c : CopyEnds} {want r w : ℕ} {t u v : Files}

/-- What a round writes goes behind what it read. -/
theorem le_roundFront (hone : c.from_ = c.into) (hpos : 0 < r)
    (hle : r ≤ (u.under c.env c.from_).size - u.pos c.from_) :
    u.pos c.from_ + r ≤ c.roundFront u r := by
  unfold CopyEnds.roundFront Files.front
  split_ifs
  · rw [← hone]
    show u.pos c.from_ + r ≤ (u.under c.env c.from_).size
    omega
  · rw [← hone, Files.moveTo_self]

/-- The one position is moved by what is read and by what is written. -/
theorem CopyPassed.one_pos (h : CopyPassed c u v r w) (hone : c.from_ = c.into) (hw : w ≤ r)
    (hle : r ≤ (u.under c.env c.from_).size - u.pos c.from_) :
    u.pos c.from_ + r + w ≤ v.pos c.from_ := by
  rw [h.pos]
  split_ifs with hzero
  · rw [Function.update_self, hzero, Nat.add_zero]
  · have hfront := le_roundFront hone (u := u) (r := r) (by omega) hle
    rw [← hone, Function.update_self]
    omega

/-- A byte that is not behind the position is left alone. -/
theorem CopyPassed.one_byte (h : CopyPassed c u v r w) (hone : c.from_ = c.into) (hw : w ≤ r)
    (hle : r ≤ (u.under c.env c.from_).size - u.pos c.from_) {y : ℕ} (hy : y ≤ u.pos c.from_) :
    (v.under c.env c.into).byte y = (u.under c.env c.into).byte y := by
  rw [Files.under, h.file, Function.update_self]
  rcases Nat.eq_zero_or_pos w with hzero | hpos
  · rw [hzero, FileBytes.read_zero, FileBytes.write_nil]
  · have hfront := le_roundFront hone (u := u) (r := r) (by omega) hle
    exact FileBytes.byte_write_of_lt _ _ (by omega)

theorem roundReads_le (c : CopyEnds) (want : ℕ) (u : Files) (d : ℕ) :
    c.roundReads want u d ≤ (u.under c.env c.from_).size - u.pos c.from_ := Nat.min_le_right _ _

theorem roundWrites_le (c : CopyEnds) (want : ℕ) (u : Files) (d : ℕ) :
    c.roundWrites want u d ≤ c.roundReads want u d := Nat.min_le_left _ _

/-- The position is twice as far on as the copy. -/
theorem copyLoop_one_pos (hone : c.from_ = c.into) :
    t.pos c.from_ + 2 * (copyLoop c want want t 0).done ≤
      (copyLoop c want want t 0).files.pos c.from_ := by
  refine copyLoop_keeps (P := fun u d => t.pos c.from_ + 2 * d ≤ u.pos c.from_)
    (fun u v d hu hpassed => ?_) le_rfl (Nat.le_add_left _ _)
  have hpos := hpassed.one_pos hone (roundWrites_le c want u d) (roundReads_le c want u d)
  have hle := roundWrites_le c want u d
  omega

/-- What is where the copy begins is left alone. -/
theorem copyLoop_one_byte (hone : c.from_ = c.into) :
    ((copyLoop c want want t 0).files.under c.env c.into).byte (t.pos c.from_) =
      (t.under c.env c.into).byte (t.pos c.from_) := by
  refine (copyLoop_keeps (P := fun u _ => (u.under c.env c.into).byte (t.pos c.from_) =
      (t.under c.env c.into).byte (t.pos c.from_) ∧ t.pos c.from_ ≤ u.pos c.from_)
    (fun u v d hu hpassed => ⟨?_, ?_⟩) ⟨rfl, le_rfl⟩ (Nat.le_add_left _ _)).1
  · rw [hpassed.one_byte hone (roundWrites_le c want u d) (roundReads_le c want u d) hu.2, hu.1]
  · have hpos := hpassed.one_pos hone (roundWrites_le c want u d) (roundReads_le c want u d)
    omega

/-- Behind what the first round read is the byte that it began with. -/
theorem copyLoop_one_again (hone : c.from_ = c.into) (hpos : 0 < c.roundWrites want t 0) :
    ((copyLoop c want want t 0).files.under c.env c.into).byte
        (c.roundFront t (c.roundReads want t 0)) =
      (t.under c.env c.from_).byte (t.pos c.from_) := by
  have hreads := roundReads_le c want t 0
  have hwrites := roundWrites_le c want t 0
  have hkept := @copyLoop_keeps c want 0 t (fun u d => d = 0 ∧ u = t ∨
      (u.under c.env c.into).byte (c.roundFront t (c.roundReads want t 0)) =
        (t.under c.env c.from_).byte (t.pos c.from_) ∧
      0 < d ∧ c.roundFront t (c.roundReads want t 0) ≤ u.pos c.from_)
    (fun u v d hu hpassed => ?_) want (Or.inl ⟨rfl, rfl⟩) (Nat.le_add_left _ _)
  · -- something was copied, so that the invariant is past its first case
    rcases hkept with ⟨hdone, -⟩ | ⟨hbyte, -⟩
    · exact absurd (copyLoop_done_eq_zero_iff.mp hdone) hpos.ne'
    · exact hbyte
  · have hmoved := hpassed.one_pos hone (roundWrites_le c want u d) (roundReads_le c want u d)
    right
    rcases hu with ⟨rfl, rfl⟩ | ⟨hbyte, hd, hle⟩
    · -- the first round
      refine ⟨?_, by omega, ?_⟩
      · rw [Files.under, hpassed.file, Function.update_self]
        have hwrite := FileBytes.byte_write_read (u.under c.env c.into)
          (c.roundFront u (c.roundReads want u 0)) (g := u.under c.env c.from_)
          (a := u.pos c.from_) (n := c.roundWrites want u 0) (by omega) hpos
        rwa [Nat.add_zero, Nat.add_zero] at hwrite
      · rw [hpassed.pos, if_neg hpos.ne', ← hone, Function.update_self]
        exact Nat.le_add_right _ _
    · -- a later one begins behind that byte
      refine ⟨?_, by omega, by omega⟩
      rw [hpassed.one_byte hone (roundWrites_le c want u d) (roundReads_le c want u d) hle, hbyte]

end One

end OpenkalMusl
