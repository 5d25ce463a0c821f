import OpenkalMusl.Memory.Unmapping

/-!
# Unmapping a part of a file mapping

The environment releases a file mapping only whole, so a `munmap` of a part of one is to be
refused. `okm_map_unmap` compares the address with the first of the mapping and does not read the
length: a call that names the head of a mapping releases all of it. An address behind the first is
refused, unless the search finds another mapping there first, and an interval that begins before a
mapping is left to the record of ranges and to `kal_free`.

## Main definitions

* `FileRegion.NamesWhole`, `FileRegion.NamesPart`: what an address and a length name of a mapping
* `Memory.RefusesAt`: the addresses that `munmap` refuses
* `Memory.KeepsWhole`: a call that does not name the whole of a mapping, nor its head

## Main results

* `Memory.munmap_refused_iff`: when `munmap` is refused with nothing released
* `parts_refused_iff`: when the unmapping of a part is refused, in every reachable state, and that a
  mapping stays along every run that names no head of it
-/

namespace OpenkalMusl

open Transition

namespace FileRegion

/-- The interval contains the extent a mapping was asked for with. -/
def NamesWhole (f : FileRegion) (addr len : ℕ) : Prop :=
  addr ≤ f.user ∧ f.user + f.userLen ≤ addr + rounded okmPage len

/-- The interval begins in the extent of a mapping or reaches into it, and does not contain it. -/
def NamesPart (f : FileRegion) (addr len : ℕ) : Prop :=
  (f.user ≤ addr ∨ f.user < addr + rounded okmPage len) ∧ addr < f.user + f.userLen ∧
    ¬ f.NamesWhole addr len

instance (f : FileRegion) (addr len : ℕ) : Decidable (f.NamesWhole addr len) :=
  inferInstanceAs (Decidable (_ ∧ _))

instance (f : FileRegion) (addr len : ℕ) : Decidable (f.NamesPart addr len) :=
  inferInstanceAs (Decidable (_ ∧ _ ∧ ¬ _))

/-- A length that is not zero when it is rounded, and less than the mapping's own, names a part from
the first address on; so does a length of zero. -/
theorem namesPart_head {f : FileRegion} {len : ℕ} (h : rounded okmPage len < f.userLen) :
    f.NamesPart f.user len := by
  unfold NamesPart NamesWhole
  omega

end FileRegion

namespace Memory

variable {env : MemEnv} {m n : Memory} {addr len : ℕ}

/-- Where `munmap` refuses: behind the first address of the file mapping that the search finds, and
where it finds none, at an address inside a recorded range that is no multiple of the
granularity. -/
def RefusesAt (env : MemEnv) (m : Memory) (addr : ℕ) : Prop :=
  match findFile m.files addr with
  | some i => ∃ f, m.files[i]? = some f ∧ addr ≠ f.user
  | none => env.regions = true ∧ findRange m.table.ranges addr ≠ none ∧ addr % env.grain ≠ 0

theorem unmap_misaligned_iff (len : ℕ) {t : RegionTable} {g : ℕ} :
    t.unmap g addr len = .misaligned ↔ findRange t.ranges addr ≠ none ∧ addr % g ≠ 0 := by
  by_cases hfind : findRange t.ranges addr = none
  · rw [unmap_notFound_iff.mpr hfind]
    simp [hfind]
  · have hfound : t.unmap g addr len ≠ .notFound := fun h => hfind (unmap_notFound_iff.mp h)
    unfold RegionTable.unmap at hfound ⊢
    cases hrange : findRange t.ranges addr with
    | none => exact absurd hrange hfind
    | some i =>
      simp only [hrange] at hfound ⊢
      cases hr : t.ranges[i]? with
      | none => simp [hr] at hfound
      | some r =>
        simp only
        by_cases halign : addr % g ≠ 0
        · simp [halign]
        · simp only [if_neg halign, ne_eq, reduceCtorEq, not_false_eq_true, true_and]
          split_ifs <;> simpa using halign

/-- What the record of ranges refuses. -/
theorem okmRegionUnmap_refused_iff (len : ℕ) :
    m.okmRegionUnmap env addr len = some (m, .error .einval) ↔
      env.regions = true ∧ findRange m.table.ranges addr ≠ none ∧ addr % env.grain ≠ 0 := by
  rw [← unmap_misaligned_iff len]
  unfold okmRegionUnmap
  by_cases hregions : env.regions = false
  · simp [hregions]
  · rw [if_neg hregions]
    have hregions' : env.regions = true := by simpa using hregions
    cases m.table.unmap env.grain addr len with
    | notFound => simp
    | misaligned => simp [hregions']
    | whole r t =>
      simp only
      split_ifs <;> simp
    | part lo hi =>
      simp only
      split_ifs <;> simp

/-- **When `munmap` is refused** with the tables as they were and nothing released. -/
theorem munmap_refused_iff :
    m.munmap env addr len = (m, .error .einval) ↔ m.RefusesAt env addr := by
  unfold RefusesAt
  cases hfile : findFile m.files addr with
  | some i =>
    obtain ⟨⟨f, hf, -⟩, -⟩ := findFile_eq_some_iff.mp hfile
    rw [munmap_of_claimed hfile hf]
    simp only [hf, Option.some.injEq, exists_eq_left']
    by_cases haddr : addr = f.user <;> simp [haddr]
  | none =>
    -- behind the files the ranges are asked, and behind these nothing is refused so
    rw [munmap_of_unclaimed hfile]
    simp only
    rw [← okmRegionUnmap_refused_iff len]
    cases hregion : m.okmRegionUnmap env addr len with
    | some r => simp
    | none =>
      simp only
      split_ifs <;> simp

/-! ## A mapping along a run -/

/-- A call that does not name the whole of a mapping, and where it names a part of it, is made at an
address that is refused. -/
def KeepsWhole (f : FileRegion) (env : MemEnv) (m : Memory) : MemLabel → Prop
  | .munmap addr len =>
    ¬ f.NamesWhole addr len ∧ (f.NamesPart addr len → m.RefusesAt env addr)
  | _ => True

instance : Decidable (m.RefusesAt env addr) := by
  unfold RefusesAt
  cases findFile m.files addr with
  | none => exact inferInstanceAs (Decidable (_ ∧ _ ∧ _))
  | some i =>
    cases h : m.files[i]? with
    | none => exact isFalse (by simp [h])
    | some f => exact decidable_of_iff (addr ≠ f.user) (by simp [h])

instance (f : FileRegion) (l : MemLabel) : Decidable (m.KeepsWhole f env l) :=
  MemLabel.casesOn (motive := fun l => Decidable (m.KeepsWhole f env l)) l
    (fun _ _ => isTrue trivial)
    (fun addr len => inferInstanceAs (Decidable (¬ f.NamesWhole addr len ∧
      (f.NamesPart addr len → m.RefusesAt env addr))))
    (fun _ _ => isTrue trivial)

/-- A mapping that a `munmap` does not find at its own first address stays. -/
theorem Unmapped.mem_files {f : FileRegion} (hn : Unmapped env m addr len n) (hf : f ∈ m.files)
    (hnot : ∀ i, findFile m.files addr = some i → m.files[i]? = some f → addr ≠ f.user) :
    f ∈ n.files := by
  cases hn with
  | same hnone => exact hf
  | file i e hi he haddr =>
    -- another entry is removed
    rcases List.mem_cons.mp ((removeAt_perm he).symm.subset hf) with rfl | hmem
    · exact absurd haddr (hnot i hi he)
    · exact hmem
  | region r t hregions hfile hrange hwhole hgiven => exact hf
  | snapshot r t hregions hrange hwhole hgiven => exact hf
  | part lo hi hregions hrange => exact hf
  | free hfile hrange hgiven => exact hf

theorem Mapped.mem_files {f : FileRegion} (hn : Mapped env m n) (hf : f ∈ m.files) :
    f ∈ n.files := by
  cases hn with
  | same => exact hf
  | file e cap huser hlen => exact List.mem_append_left _ hf
  | region r t grows hregions hmade hrec => exact hf
  | heap r hmade => exact hf
  | refused k r hk => exact hf

/-- **One call that keeps a mapping whole leaves it in the table.** -/
theorem mem_files_step {f : FileRegion} {l : MemLabel} (hlen : 0 < f.userLen) (hf : f ∈ m.files)
    (hl : m.KeepsWhole f env l) (hs : m.step env l = some n) : f ∈ n.files := by
  cases l with
  | mmap q a =>
    simp only [Memory.step] at hs
    split_ifs at hs with hmay
    rw [← Option.some.inj hs]
    exact (mmap_mapped q a).mem_files hf
  | munmap addr len =>
    rw [← Option.some.inj hs]
    refine (munmap_unmapped addr len).mem_files hf fun i hi hfi haddr => ?_
    -- the call begins where the mapping does, so that it names the whole or the head
    have hpart : f.NamesPart addr len := ⟨Or.inl haddr.ge, by omega, hl.1⟩
    have hrefuses := hl.2 hpart
    unfold RefusesAt at hrefuses
    simp only [hi, hfi, Option.some.injEq, exists_eq_left'] at hrefuses
    exact hrefuses haddr
  | msync addr answer =>
    rw [← Option.some.inj hs]
    rcases msync_cases addr answer with heq | ⟨r, heq⟩
    · rw [heq]
      exact hf
    · rw [heq]
      exact hf

end Memory

/-- **When the unmapping of a part of a file mapping is refused**, with nothing released: exactly
where the file mapping that is found at its address begins before it, or none is found and the
address is inside a recorded range and not aligned. And along every run whose calls do not name the
whole of a mapping, and name a part of it only at such an address, the mapping stays recorded and
held. -/
theorem parts_refused_iff (env : MemEnv) :
    (∀ m, Reachable (Memory.step env) Memory.start m → ∀ f ∈ m.files, ∀ addr len,
        f.NamesPart addr len →
          (m.munmap env addr len = (m, .error .einval) ↔ m.RefusesAt env addr)) ∧
      ∀ m, Reachable (Memory.step env) Memory.start m → ∀ f ∈ m.files, ∀ n,
        Reachable (restrict (Memory.step env) (Memory.KeepsWhole f env)) m n →
          f ∈ n.files ∧ f.region ∈ held .map n.log := by
  refine ⟨fun m _ f _ addr len _ => Memory.munmap_refused_iff, fun m hm f hf n hn => ?_⟩
  have hlen : 0 < f.userLen := ((Memory.inv_of_reachable hm).small f hf).2.1
  have hmem : f ∈ n.files := by
    -- along the guarded run every step keeps the entry
    refine hn.invariant (I := fun k => f ∈ Memory.files k) hf fun u l v hu hv => ?_
    obtain ⟨hl, hstep⟩ := restrict_eq_some.mp hv
    exact Memory.mem_files_step hlen hu hl hstep
  exact ⟨hmem, (Memory.inv_of_reachable (hm.trans hn.of_restrict)).files f hmem⟩

/-- Two pages of a file of four. -/
def twoOfFour : List MemLabel :=
  [.mmap (ofFile 8192 twoPages_lt) ⟨.file 16384, .ok 65536, none, none, true⟩]

/-- The second page is refused, and after that the mapping is there. -/
theorem parts_refused_iff_second :
    ∃ m n, run (Memory.step ⟨true, true, 4096, none⟩) Memory.start twoOfFour = some m ∧
      m.munmap ⟨true, true, 4096, none⟩ 69632 4096 = (m, .error .einval) ∧
      run (restrict (Memory.step ⟨true, true, 4096, none⟩)
          (Memory.KeepsWhole ⟨65536, 8192, 65536, 8192⟩ ⟨true, true, 4096, none⟩)) m
        [.munmap 69632 4096] = some n ∧
      (⟨65536, 8192, 65536, 8192⟩ : FileRegion) ∈ n.files := by
  have hsome : (run (Memory.step ⟨true, true, 4096, none⟩) Memory.start twoOfFour).isSome := by
    decide +kernel
  obtain ⟨m, hm⟩ := Option.isSome_iff_exists.mp hsome
  have hfiles : m.files = [⟨65536, 8192, 65536, 8192⟩] :=
    observe hm Memory.files (by decide +kernel)
  have hmem : (⟨65536, 8192, 65536, 8192⟩ : FileRegion) ∈ m.files := by simp [hfiles]
  have hrefuses : m.RefusesAt ⟨true, true, 4096, none⟩ 69632 := by
    unfold Memory.RefusesAt
    rw [hfiles]
    exact ⟨_, rfl, by decide⟩
  obtain ⟨hparts, hruns⟩ := parts_refused_iff ⟨true, true, 4096, none⟩
  have hrefused := (hparts m ⟨_, hm⟩ _ hmem 69632 4096 (by decide)).mpr hrefuses
  have hrun : run (restrict (Memory.step ⟨true, true, 4096, none⟩)
      (Memory.KeepsWhole ⟨65536, 8192, 65536, 8192⟩ ⟨true, true, 4096, none⟩)) m
      [.munmap 69632 4096] = some m := by
    refine run_cons.mpr ⟨m, restrict_eq_some.mpr ⟨⟨by decide, fun _ => hrefuses⟩, ?_⟩, rfl⟩
    exact congrArg (fun r => some r.1) hrefused
  exact ⟨m, m, hm, hrefused, hrun, (hruns m ⟨_, hm⟩ _ hmem m ⟨_, hrun⟩).1⟩

/-- The first page of two: the call reports success and both are released. -/
theorem head_releases_whole :
    ¬ ∀ env m, Reachable (Memory.step env) Memory.start m → ∀ f ∈ m.files, ∀ addr len,
      f.NamesPart addr len → m.munmap env addr len = (m, .error .einval) := by
  intro hall
  have hsome : (run (Memory.step ⟨true, true, 4096, none⟩) Memory.start twoOfFour).isSome := by
    decide +kernel
  obtain ⟨m, hm⟩ := Option.isSome_iff_exists.mp hsome
  have hfiles : m.files = [⟨65536, 8192, 65536, 8192⟩] :=
    observe hm Memory.files (by decide +kernel)
  have hanswer : (m.munmap ⟨true, true, 4096, none⟩ 65536 4096).2 = .ok 0 :=
    observe hm (fun m => (m.munmap ⟨true, true, 4096, none⟩ 65536 4096).2) rfl
  have hrefused := hall _ m ⟨_, hm⟩ ⟨65536, 8192, 65536, 8192⟩ (by simp [hfiles]) 65536 4096
    (FileRegion.namesPart_head (by decide))
  rw [hrefused] at hanswer
  cases hanswer

end OpenkalMusl
