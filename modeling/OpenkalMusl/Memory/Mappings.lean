import OpenkalMusl.Memory.Regions

/-!
# Mappings: `mmap`, `munmap` and `msync`

A mapping is a part of a file (`okm_map.c`), a reserved range (`okm_region.c`) or, where the
implementation has no regions, a block of `kal_alloc` that nothing records. `munmap` is told an
address only: it asks the table of file mappings, then the record of ranges, and gives what neither
knows to `kal_free`.

A file mapping is recorded with the length the caller asked for, though the file may end before it;
what is mapped of the file ends with it, and another mapping may begin there. The table of file
mappings is searched by the recorded length and in the order of its entries, which a removal
changes.

## Main definitions

* `FileRegion`, `findFile`: the table of file mappings
* `Memory.mmap`, `Memory.munmap`, `Memory.msync`: the system calls
* `Memory.step`: the calls of a program, one after another
* `Memory.Names`: a `munmap` of an address that somebody owns
* `Memory.Unclaimed`: no file mapping is recorded over the address of another mapping

## Main results

* `Memory.Inv.step`: what is recorded is held, each of its own interface
* `frees_what_was_allocated`: when `munmap` gives to `kal_free` only what came from `kal_alloc`
* `munmap_releases_iff`: when `munmap` and `msync` reach the mapping they name
-/

namespace OpenkalMusl

open Transition

/-- `OKM_PAGE`. -/
def okmPage : ℕ := 4096

/-- `KAL_MAP_ALIGNMENT`. -/
def kalMapAlignment : ℕ := 65536

/-- The openkal interface that memory is obtained from. -/
inductive MemSource where
  /-- `kal_map_file` and `kal_map_release` -/
  | map
  /-- `kal_region_reserve` and `kal_region_release` -/
  | region
  /-- `kal_alloc` and `kal_free` -/
  | heap
  deriving DecidableEq

/-- What the environment is asked for and given. -/
inductive MemEvent where
  | take (k : MemSource) (r : Range)
  | give (k : MemSource) (r : Range)
  | sync (r : Range)
  | decommit (lo hi : ℕ)
  deriving DecidableEq

namespace MemEvent

def takes (k : MemSource) : MemEvent → Option Range
  | .take k' r => if k' = k then some r else none
  | _ => none

def gives (k : MemSource) : MemEvent → Option Range
  | .give k' r => if k' = k then some r else none
  | _ => none

end MemEvent

/-- What was obtained through an interface and not given back through it. -/
def held (k : MemSource) (log : List MemEvent) : Finset Range :=
  History.held (MemEvent.takes k) (MemEvent.gives k) log

/-- Every block given back through an interface had been obtained through it, and not given back
since. -/
def GivesHeld (k : MemSource) (log : List MemEvent) : Prop :=
  History.Always (fun pre e => ∀ r, e = .give k r → r ∈ held k pre) log

/-- What the implementation provides, and the memory of the snapshot the program started from. -/
structure MemEnv where
  maps : Bool
  regions : Bool
  granularity : ℕ
  arena : Option Range

namespace MemEnv

/-- `okm_from_snapshot`. -/
def okmFromSnapshot (env : MemEnv) (p : ℕ) : Bool :=
  match env.arena with
  | some a => a.base ≤ p && p - a.base < a.size
  | none => false

def grain (env : MemEnv) : ℕ := OpenkalMusl.grain env.granularity

end MemEnv

/-! ## The table of file mappings -/

/-- `struct region`: what `mmap` returned and was asked for, and what `kal_map_file` was. -/
structure FileRegion where
  user : ℕ
  userLen : ℕ
  base : ℕ
  baseLen : ℕ
  deriving DecidableEq

namespace FileRegion

/-- Whether the recorded extent contains an address, as `find` adds it up. -/
def Claims (f : FileRegion) (addr : ℕ) : Prop :=
  f.user ≤ addr ∧ addr < word (f.user + f.userLen)

instance (f : FileRegion) (addr : ℕ) : Decidable (f.Claims addr) :=
  inferInstanceAs (Decidable (_ ∧ _))

/-- What is mapped of the file. -/
def region (f : FileRegion) : Range := ⟨f.base, f.baseLen⟩

end FileRegion

/-- `find` of `okm_map.c`. -/
def findFile (files : List FileRegion) (addr : ℕ) : Option ℕ :=
  files.findIdx? fun f => f.Claims addr

/-- `g_regions[i] = g_regions[--g_count]`. -/
def removeAt (files : List FileRegion) (i : ℕ) : List FileRegion :=
  match files.getLast? with
  | some last => (files.set i last).dropLast
  | none => files

/-! ## The system calls -/

/-- The state of both tables, with the history of what the environment was asked. -/
structure Memory where
  files : List FileRegion
  fileCap : ℕ
  table : RegionTable
  log : List MemEvent

/-- The arguments of `mmap`, its flags and protection said apart. -/
structure MapRequest where
  addr : ℕ
  len : ℕ
  write : Bool
  exec : Bool
  shared : Bool
  priv : Bool
  fixed : Bool
  anon : Bool
  fd : Int
  off : Int
  len_lt : len < 2 ^ 64

/-- What the descriptor of a file mapping is. -/
inductive MapTarget where
  | badFd
  | notFile
  | noInfo (e : KalError)
  | file (size : ℕ)

/-- What the environment answers during one `mmap`. -/
structure MapAnswers where
  target : MapTarget
  mapped : Except KalError ℕ
  reserved : Option ℕ
  allocated : Option ℕ
  /-- Whether `kal_alloc` answers when a table is full. -/
  grows : Bool

namespace Memory

def start : Memory := ⟨[], 0, .start, []⟩

def say (m : Memory) (e : MemEvent) : Memory := { m with log := m.log ++ [e] }

/-- `record` of `okm_map.c`. -/
def recordFile (m : Memory) (f : FileRegion) (grows : Bool) : Option Memory :=
  if m.files.length = m.fileCap ∧ grows = false then none
  else
    some { m with
      files := m.files ++ [f]
      fileCap := if m.files.length = m.fileCap then (if m.fileCap ≠ 0 then m.fileCap * 2 else 64)
        else m.fileCap }

/-- The bytes of the file from `start` on that `okm_map_file` asks for. -/
def wanted (size start lead len : ℕ) : ℕ :=
  let want := word (lead + len)
  if size < word (start + want) then size - start else want

/-- `okm_map_file`. -/
def okmMapFile (env : MemEnv) (m : Memory) (q : MapRequest) (a : MapAnswers) :
    Memory × Except Errno ℕ :=
  if env.maps = false then (m, .error .enosys)
  else if q.fixed then (m, .error .eopnotsupp)
  else if q.exec then (m, .error .eacces)
  else if q.len = 0 ∨ q.off < 0 then (m, .error .einval)
  else if q.shared = false ∧ q.priv = false then (m, .error .einval)
  else
    match a.target with
    | .badFd => (m, .error .ebadf)
    | .notFile => (m, .error .enodev)
    | .noInfo e => (m, .error (okmErrno e))
    | .file size =>
      let off := q.off.toNat
      let lead := off % kalMapAlignment
      let start := off - lead
      if size ≤ off then (m, .error .enxio)
      else
        let want := wanted size start lead q.len
        match a.mapped with
        | .error e => (m, .error (if e = .notSupported then .enodev else okmErrno e))
        | .ok base =>
          let f : FileRegion := ⟨word (base + lead), q.len, base, want⟩
          let m := m.say (.take .map f.region)
          match m.recordFile f a.grows with
          | none => (m.say (.give .map f.region), .error .enomem)
          | some m => (m, .ok f.user)

/-- `okm_region_map`. -/
def okmRegionMap (env : MemEnv) (m : Memory) (len : ℕ) (a : MapAnswers) : Memory × Except Errno ℕ :=
  if env.regions = false then (m, .error .enosys)
  else if len = 0 then (m, .error .einval)
  else if 2 ^ 64 - 1 - (env.grain - 1) < len then (m, .error .enomem)
  else
    match a.reserved with
    | none => (m, .error .enomem)
    | some base =>
      let r : Range := ⟨base, wholeGrains env.grain len⟩
      let m := m.say (.take .region r)
      match m.table.record r a.grows with
      | none => (m.say (.give .region r), .error .enomem)
      | some t => ({ m with table := t }, .ok base)

/-- `do_mmap`. -/
def mmap (env : MemEnv) (m : Memory) (q : MapRequest) (a : MapAnswers) : Memory × Except Errno ℕ :=
  if 0 ≤ q.fd ∧ q.anon = false then m.okmMapFile env q a
  else if q.addr ≠ 0 ∨ 0 ≤ q.fd ∨ q.off ≠ 0 then (m, .error .enosys)
  else if q.anon = false ∨ q.priv = false then (m, .error .enosys)
  else if q.len = 0 then (m, .error .einval)
  else if env.regions then m.okmRegionMap env q.len a
  else if 2 ^ 64 - 1 - (okmPage - 1) < q.len then (m, .error .enomem)
  else
    match a.allocated with
    | none => (m, .error .enomem)
    | some p => (m.say (.take .heap ⟨p, wholeGrains okmPage q.len⟩), .ok p)

/-- `okm_map_unmap`: nothing where no file mapping claims the address. -/
def okmMapUnmap (m : Memory) (addr : ℕ) : Option (Memory × Except Errno ℕ) :=
  match findFile m.files addr with
  | none => none
  | some i =>
    match m.files[i]? with
    | none => none
    | some f =>
      -- only the whole of a file mapping
      if addr ≠ f.user then some (m, .error .einval)
      else some ({ m with files := removeAt m.files i }.say (.give .map f.region), .ok 0)

/-- `okm_region_unmap`: nothing where no range contains the address. -/
def okmRegionUnmap (env : MemEnv) (m : Memory) (addr len : ℕ) :
    Option (Memory × Except Errno ℕ) :=
  if env.regions = false then none
  else
    match m.table.unmap env.grain addr len with
    | .notFound => none
    | .misaligned => some (m, .error .einval)
    | .whole r t =>
      if env.okmFromSnapshot r.base then some ({ m with table := t }, .ok 0)
      else some ({ m with table := t }.say (.give .region r), .ok 0)
    | .part lo hi =>
      if lo < hi ∧ env.okmFromSnapshot lo = false then some (m.say (.decommit lo hi), .ok 0)
      else some (m, .ok 0)

/-- `SYS_munmap`. -/
def munmap (env : MemEnv) (m : Memory) (addr len : ℕ) : Memory × Except Errno ℕ :=
  match m.okmMapUnmap addr with
  | some r => r
  | none =>
    match m.okmRegionUnmap env addr len with
    | some r => r
    | none =>
      -- okm_kal_free
      if env.okmFromSnapshot addr then (m, .ok 0)
      else (m.say (.give .heap ⟨addr, wholeGrains okmPage len⟩), .ok 0)

/-- `SYS_msync`: `kal_map_sync` of the region found, with what it answers. -/
def msync (m : Memory) (addr : ℕ) (answer : Except KalError Unit) : Memory × Except Errno ℕ :=
  match findFile m.files addr with
  | none => (m, .ok 0)
  | some i =>
    match m.files[i]? with
    | none => (m, .ok 0)
    | some f =>
      (m.say (.sync f.region),
        match answer with
        | .ok _ => .ok 0
        | .error e => .error (okmErrno e))

end Memory

/-! ## A program that maps and unmaps -/

/-- What the environment holds for the program. -/
def inUse (log : List MemEvent) : Finset Range :=
  held .map log ∪ held .region log ∪ held .heap log

/-- What the environment may answer with: memory below the top of the address space, apart from all
that the program holds and from the snapshot's, and aligned as a region is asked to be. -/
def MayTake (env : MemEnv) (log : List MemEvent) (k : MemSource) (r : Range) : Prop :=
  r.base + r.size < 2 ^ 64 ∧ env.okmFromSnapshot r.base = false ∧
    (k = .region → r.base % env.grain = 0) ∧ ∀ q ∈ inUse log, r.base ≠ q.base ∧ r.Apart q

/-- An event that the environment may take part in. -/
def MayHappen (env : MemEnv) (log : List MemEvent) : MemEvent → Prop
  | .take k r => MayTake env log k r
  | _ => True

instance (env : MemEnv) (log : List MemEvent) (k : MemSource) (r : Range) :
    Decidable (MayTake env log k r) := inferInstanceAs (Decidable (_ ∧ _))

instance (env : MemEnv) (log : List MemEvent) (e : MemEvent) : Decidable (MayHappen env log e) := by
  unfold MayHappen
  split <;> infer_instance

inductive MemLabel where
  | mmap (q : MapRequest) (a : MapAnswers)
  | munmap (addr len : ℕ)
  | msync (addr : ℕ) (answer : Except KalError Unit)

namespace Memory

/-- The events of a call that led from `m` to `n`. -/
def since (m n : Memory) : List MemEvent := n.log.drop m.log.length

/-- One system call, with the answers an environment may give. -/
def step (env : MemEnv) (m : Memory) : MemLabel → Option Memory
  | .mmap q a =>
    let n := (m.mmap env q a).1
    if ∀ e ∈ m.since n, MayHappen env m.log e then some n else none
  | .munmap addr len => some (m.munmap env addr len).1
  | .msync addr answer => some (m.msync addr answer).1

end Memory

/-! ## What is held -/

/-- The length a mapping of `size` bytes is made with. -/
def MadeWith (g size len : ℕ) : Prop :=
  len ≠ 0 ∧ len ≤ 2 ^ 64 - 1 - (g - 1) ∧ wholeGrains g len = size

section Held

variable {log : List MemEvent} {k : MemSource} {r : Range}

theorem held_take (k' : MemSource) :
    held k' (log ++ [.take k r]) = if k = k' then insert r (held k' log) else held k' log := by
  split_ifs with h
  · exact History.held_take (by simp [MemEvent.takes, h])
  · exact History.held_other (by simp [MemEvent.takes, h]) rfl

theorem held_give (k' : MemSource) :
    held k' (log ++ [.give k r]) = if k = k' then (held k' log).erase r else held k' log := by
  split_ifs with h
  · exact History.held_give rfl (by simp [MemEvent.gives, h])
  · exact History.held_other rfl (by simp [MemEvent.gives, h])

theorem mem_inUse : r ∈ inUse log ↔ ∃ k, r ∈ held k log := by
  unfold inUse
  rw [Finset.mem_union, Finset.mem_union]
  constructor
  · rintro ((h | h) | h)
    · exact ⟨_, h⟩
    · exact ⟨_, h⟩
    · exact ⟨_, h⟩
  · rintro ⟨k, h⟩
    cases k
    · exact Or.inl (Or.inl h)
    · exact Or.inl (Or.inr h)
    · exact Or.inr h

/-- What is said of memory that is held. -/
structure Sane (env : MemEnv) (k : MemSource) (r : Range) : Prop where
  below : r.base + r.size < 2 ^ 64
  given : env.okmFromSnapshot r.base = false
  region : k = .region → r.base % env.grain = 0 ∧ ∃ len, MadeWith env.grain r.size len
  heap : k = .heap → ∃ len, MadeWith okmPage r.size len

/-- What is held is apart. -/
structure Separate (env : MemEnv) (log : List MemEvent) : Prop where
  sane : ∀ k r, r ∈ held k log → Sane env k r
  apart : ∀ k k' r q, r ∈ held k log → q ∈ held k' log → (k, r) ≠ (k', q) →
    r.base ≠ q.base ∧ r.Apart q

variable {env : MemEnv}

theorem Separate.take (h : Separate env log) (hsane : Sane env k r)
    (hmay : MayTake env log k r) : Separate env (log ++ [.take k r]) := by
  have hmem : ∀ k' q, q ∈ held k' (log ++ [.take k r]) → (k', q) = (k, r) ∨ q ∈ held k' log := by
    intro k' q hq
    rw [held_take] at hq
    split_ifs at hq with hk
    · rcases Finset.mem_insert.mp hq with rfl | hq
      · exact Or.inl (by rw [hk])
      · exact Or.inr hq
    · exact Or.inr hq
  constructor
  · intro k' q hq
    rcases hmem k' q hq with heq | hq
    · cases heq
      exact hsane
    · exact h.sane k' q hq
  · intro k' k'' q p hq hp hne
    rcases hmem k' q hq with heq | hq
    · rcases hmem k'' p hp with heq' | hp
      · exact absurd (heq.trans heq'.symm) hne
      · cases heq
        exact hmay.2.2.2 p (mem_inUse.mpr ⟨k'', hp⟩)
    · rcases hmem k'' p hp with heq' | hp
      · cases heq'
        obtain ⟨hbase, hapart⟩ := hmay.2.2.2 q (mem_inUse.mpr ⟨k', hq⟩)
        exact ⟨hbase.symm, hapart.symm⟩
      · exact h.apart k' k'' q p hq hp hne

/-- What is given back is not held any more, and nothing else changes. -/
theorem Separate.of_subset {log' : List MemEvent} (h : Separate env log)
    (hsub : ∀ k, held k log' ⊆ held k log) : Separate env log' where
  sane k r hr := h.sane k r (hsub k hr)
  apart k k' r q hr hq := h.apart k k' r q (hsub k hr) (hsub k' hq)

theorem held_give_subset (k' : MemSource) : held k' (log ++ [.give k r]) ⊆ held k' log := by
  rw [held_give]
  split_ifs
  · exact Finset.erase_subset r _
  · exact Finset.Subset.refl _

end Held

/-! ## What one call does -/

namespace Memory

variable {env : MemEnv} {m n : Memory}

/-- What `mmap` can lead to. -/
inductive Mapped (env : MemEnv) (m : Memory) : Memory → Prop where
  | same : Mapped env m m
  | file (f : FileRegion) (cap : ℕ) (huser : f.user < 2 ^ 64)
      (hlen : 0 < f.userLen ∧ f.userLen < 2 ^ 64) :
      Mapped env m ⟨m.files ++ [f], cap, m.table, m.log ++ [.take .map f.region]⟩
  | region (r : Range) (t : RegionTable) (grows : Bool) (hregions : env.regions = true)
      (hmade : ∃ len, MadeWith env.grain r.size len) (hrec : m.table.record r grows = some t) :
      Mapped env m ⟨m.files, m.fileCap, t, m.log ++ [.take .region r]⟩
  | heap (r : Range) (hmade : ∃ len, MadeWith okmPage r.size len) :
      Mapped env m (m.say (.take .heap r))
  /-- There was no room in a table. -/
  | refused (k : MemSource) (r : Range) (hk : k ≠ .heap) :
      Mapped env m ((m.say (.take k r)).say (.give k r))

theorem okmMapFile_mapped (q : MapRequest) (a : MapAnswers) :
    Mapped env m (m.okmMapFile env q a).1 := by
  unfold okmMapFile
  split_ifs with hmaps hfixed hexec hlen hkind
  · exact .same
  · exact .same
  · exact .same
  · exact .same
  · exact .same
  · have hpos : 0 < q.len := Nat.pos_of_ne_zero fun h => hlen (Or.inl h)
    cases a.target with
    | badFd => exact .same
    | notFile => exact .same
    | noInfo e => exact .same
    | file size =>
      simp only
      split_ifs
      · exact .same
      · cases a.mapped with
        | error e => exact .same
        | ok base =>
          simp only [recordFile]
          split_ifs
          · exact .refused .map _ nofun
          all_goals exact .file _ _ (Nat.mod_lt _ (by decide)) ⟨hpos, q.len_lt⟩

theorem okmRegionMap_mapped (len : ℕ) (a : MapAnswers) :
    Mapped env m (m.okmRegionMap env len a).1 := by
  unfold okmRegionMap
  split_ifs with hregions hzero hbig
  · exact .same
  · exact .same
  · exact .same
  · cases a.reserved with
    | none => exact .same
    | some base =>
      simp only
      cases hrec : (m.say (.take .region ⟨base, wholeGrains env.grain len⟩)).table.record
          ⟨base, wholeGrains env.grain len⟩ a.grows with
      | none => exact .refused .region _ nofun
      | some t =>
        refine .region ⟨base, wholeGrains env.grain len⟩ t a.grows ?_ ?_ hrec
        · simpa using hregions
        · exact ⟨len, hzero, not_lt.mp hbig, rfl⟩

/-- **One `mmap`.** -/
theorem mmap_mapped (q : MapRequest) (a : MapAnswers) : Mapped env m (m.mmap env q a).1 := by
  unfold mmap
  split_ifs with hfile harg hanon hzero hregions hbig
  · exact okmMapFile_mapped q a
  · exact .same
  · exact .same
  · exact .same
  · exact okmRegionMap_mapped q.len a
  · exact .same
  · cases a.allocated with
    | none => exact .same
    | some p => exact .heap _ ⟨q.len, hzero, not_lt.mp hbig, rfl⟩

/-- What `munmap` can lead to. -/
inductive Unmapped (env : MemEnv) (m : Memory) (addr len : ℕ) : Memory → Prop where
  | same (hnone : findFile m.files addr ≠ none ∨ (env.regions = true ∧
      findRange m.table.ranges addr ≠ none) ∨ env.okmFromSnapshot addr = true) :
      Unmapped env m addr len m
  | file (i : ℕ) (f : FileRegion) (hi : findFile m.files addr = some i)
      (hf : m.files[i]? = some f) (haddr : addr = f.user) :
      Unmapped env m addr len ({ m with files := removeAt m.files i }.say (.give .map f.region))
  | region (r : Range) (t : RegionTable) (hregions : env.regions = true)
      (hfile : findFile m.files addr = none) (hrange : findRange m.table.ranges addr ≠ none)
      (hwhole : m.table.unmap env.grain addr len = .whole r t)
      (hgiven : env.okmFromSnapshot r.base = false) :
      Unmapped env m addr len ({ m with table := t }.say (.give .region r))
  /-- A snapshot's range leaves the record only. -/
  | snapshot (r : Range) (t : RegionTable) (hregions : env.regions = true)
      (hrange : findRange m.table.ranges addr ≠ none)
      (hwhole : m.table.unmap env.grain addr len = .whole r t)
      (hgiven : env.okmFromSnapshot r.base = true) :
      Unmapped env m addr len { m with table := t }
  | part (lo hi : ℕ) (hregions : env.regions = true)
      (hrange : findRange m.table.ranges addr ≠ none) :
      Unmapped env m addr len (m.say (.decommit lo hi))
  | free (hfile : findFile m.files addr = none)
      (hrange : env.regions = true → findRange m.table.ranges addr = none)
      (hgiven : env.okmFromSnapshot addr = false) :
      Unmapped env m addr len (m.say (.give .heap ⟨addr, wholeGrains okmPage len⟩))

theorem unmap_notFound_iff {t : RegionTable} {g addr len : ℕ} :
    t.unmap g addr len = .notFound ↔ findRange t.ranges addr = none := by
  unfold RegionTable.unmap
  cases hfind : findRange t.ranges addr with
  | none => simp
  | some i =>
    -- an index that is found is one of the table
    have hi : ∃ r, t.ranges[i]? = some r := by
      unfold findRange at hfind
      cases hr : t.ranges[lower t.ranges addr]? with
      | none => simp [hr] at hfind
      | some r =>
        simp only [hr] at hfind
        split_ifs at hfind
        obtain rfl := Option.some.inj hfind
        exact ⟨r, hr⟩
    obtain ⟨r, hr⟩ := hi
    simp only [hr]
    split_ifs <;> simp

/-- **One `munmap`.** -/
theorem munmap_unmapped (addr len : ℕ) : Unmapped env m addr len (m.munmap env addr len).1 := by
  unfold munmap okmMapUnmap
  cases hfile : findFile m.files addr with
  | some i =>
    have hi : i < m.files.length := by
      unfold findFile at hfile
      exact (List.findIdx?_eq_some_iff_getElem.mp hfile).1
    simp only [List.getElem?_eq_getElem hi]
    by_cases haddr : addr = m.files[i].user
    · rw [if_neg (not_not.mpr haddr)]
      exact .file i _ hfile (List.getElem?_eq_getElem hi) haddr
    · rw [if_pos haddr]
      exact .same (Or.inl (by simp [hfile]))
  | none =>
    simp only [okmRegionUnmap]
    by_cases hregions : env.regions = false
    · rw [if_pos hregions]
      simp only
      split_ifs with hgiven
      · exact .same (Or.inr (Or.inr hgiven))
      · exact .free hfile (by simp [hregions]) (by simpa using hgiven)
    · rw [if_neg hregions]
      have hregions' : env.regions = true := by simpa using hregions
      cases hu : m.table.unmap env.grain addr len with
      | notFound =>
        simp only
        split_ifs with hgiven
        · exact .same (Or.inr (Or.inr hgiven))
        · exact .free hfile (fun _ => unmap_notFound_iff.mp hu) (by simpa using hgiven)
      | misaligned =>
        have hrange : findRange m.table.ranges addr ≠ none := fun h => by
          rw [unmap_notFound_iff.mpr h] at hu
          cases hu
        exact .same (Or.inr (Or.inl ⟨hregions', hrange⟩))
      | whole r t =>
        have hrange : findRange m.table.ranges addr ≠ none := fun h => by
          rw [unmap_notFound_iff.mpr h] at hu
          cases hu
        simp only
        cases hgiven : env.okmFromSnapshot r.base with
        | true => exact .snapshot r t hregions' hrange hu hgiven
        | false => exact .region r t hregions' hfile hrange hu hgiven
      | part lo hi =>
        have hrange : findRange m.table.ranges addr ≠ none := fun h => by
          rw [unmap_notFound_iff.mpr h] at hu
          cases hu
        simp only
        by_cases hpart : lo < hi ∧ env.okmFromSnapshot lo = false
        · rw [if_pos hpart]
          exact .part lo hi hregions' hrange
        · rw [if_neg hpart]
          exact .same (Or.inr (Or.inl ⟨hregions', hrange⟩))

end Memory

/-! ## The invariant -/

/-- A removal leaves the other entries. -/
theorem removeAt_perm {files : List FileRegion} {i : ℕ} {f : FileRegion} (hf : files[i]? = some f) :
    (f :: removeAt files i).Perm files := by
  obtain ⟨hi, rfl⟩ := List.getElem?_eq_some_iff.mp hf
  rcases List.eq_nil_or_concat files with rfl | ⟨l, x, rfl⟩
  · simp at hi
  · simp only [List.concat_eq_append] at hi ⊢
    simp only [removeAt, List.getLast?_append, List.getLast?_singleton, Option.some_or]
    by_cases hl : i < l.length
    · -- the last entry takes its place
      rw [List.set_append_left _ _ hl, List.dropLast_concat, List.getElem_append_left hl]
      have hset : (l.set i x).Perm (x :: l.eraseIdx i) := List.set_perm_cons_eraseIdx hl x
      have herase : (l[i] :: l.eraseIdx i).Perm l := List.getElem_cons_eraseIdx_perm hl
      calc (l[i] :: l.set i x).Perm (l[i] :: x :: l.eraseIdx i) := hset.cons _
        _ |>.Perm (x :: l[i] :: l.eraseIdx i) := List.Perm.swap _ _ _
        _ |>.Perm (x :: l) := herase.cons _
        _ |>.Perm (l ++ [x]) := (List.perm_append_singleton x l).symm
    · have hil : i = l.length := by
        rw [List.length_append, List.length_singleton] at hi
        omega
      subst hil
      simp only [List.getElem_concat_length, List.set_append_right _ _ (le_refl l.length)]
      simpa using (List.perm_append_singleton x l).symm

namespace Memory

variable {env : MemEnv} {m n : Memory}

/-- What both tables record is held, each of its own interface. -/
structure Inv (env : MemEnv) (m : Memory) : Prop where
  separate : Separate env m.log
  order : InOrder m.table.ranges
  table : ∀ r ∈ m.table.ranges, r ∈ held .region m.log
  without : env.regions = false → m.table.ranges = []
  files : ∀ f ∈ m.files, f.region ∈ held .map m.log
  nodup : (m.files.map FileRegion.region).Nodup
  small : ∀ f ∈ m.files, f.user < 2 ^ 64 ∧ 0 < f.userLen ∧ f.userLen < 2 ^ 64

theorem inv_start : Inv env start where
  separate := ⟨fun k r hr => by simp [start, held, History.held] at hr,
    fun k _ r _ hr => by simp [start, held, History.held] at hr⟩
  order := ⟨nofun, Ranges.ordered_nil⟩
  table := nofun
  without _ := rfl
  files := nofun
  nodup := List.nodup_nil
  small := nofun

theorem held_say_take_self (r : Range) (k : MemSource) : r ∈ held k (m.log ++ [.take k r]) := by
  rw [held_take, if_pos rfl]
  exact Finset.mem_insert_self r _

theorem held_say_take {k k' : MemSource} {r q : Range} (h : q ∈ held k' m.log) :
    q ∈ held k' (m.log ++ [.take k r]) := by
  rw [held_take]
  split_ifs
  · exact Finset.mem_insert_of_mem h
  · exact h

theorem held_say_give {k k' : MemSource} {r q : Range} (h : q ∈ held k' m.log)
    (hne : k = k' → q ≠ r) : q ∈ held k' (m.log ++ [.give k r]) := by
  rw [held_give]
  split_ifs with hk
  · exact Finset.mem_erase_of_ne_of_mem (hne hk) h
  · exact h

/-- Memory taken and given back at once was not held before, so that nothing changes. -/
theorem held_refused {k k' : MemSource} {r : Range} (hnew : r ∉ held k m.log) :
    held k' (m.log ++ [.take k r] ++ [.give k r]) = held k' m.log := by
  rw [held_give, held_take]
  split_ifs with hk
  · subst hk
    exact Finset.erase_insert hnew
  · rfl

/-- The same tables over a history that leaves the same held. -/
theorem Inv.relog (h : Inv env m) {log : List MemEvent} (hsame : ∀ k, held k log = held k m.log) :
    Inv env { m with log := log } where
  separate := h.separate.of_subset fun k => (hsame k).subset
  order := h.order
  table r hr := by
    show r ∈ held .region log
    rw [hsame]
    exact h.table r hr
  without := h.without
  files f hf := by
    show f.region ∈ held .map log
    rw [hsame]
    exact h.files f hf
  nodup := h.nodup
  small := h.small

/-- **What one `mmap` keeps.** -/
theorem Inv.mapped (h : Inv env m) (hn : Mapped env m n)
    (hmay : ∀ e ∈ m.since n, MayHappen env m.log e) : Inv env n := by
  cases hn with
  | same => exact h
  | file f cap huser hlen =>
    have htake : MayTake env m.log .map f.region :=
      hmay (.take .map f.region) (by simp [since])
    -- the new region is none of those held
    have hfresh : f.region ∉ held .map m.log := fun hmem =>
      (htake.2.2.2 f.region (mem_inUse.mpr ⟨_, hmem⟩)).1 rfl
    refine ⟨h.separate.take ⟨htake.1, htake.2.1, nofun, nofun⟩ htake, h.order,
      fun r hr => held_say_take (h.table r hr), h.without, ?_, ?_, ?_⟩
    · intro e he
      rcases List.mem_append.mp he with he | he
      · exact held_say_take (h.files e he)
      · rw [List.mem_singleton.mp he]
        exact held_say_take_self _ _
    · rw [List.map_append, List.nodup_append]
      refine ⟨h.nodup, by simp, ?_⟩
      intro r hr q hq
      obtain ⟨e, he, rfl⟩ := List.mem_map.mp hr
      rw [List.mem_singleton.mp hq]
      intro heq
      exact hfresh (heq ▸ h.files e he)
    · intro e he
      rcases List.mem_append.mp he with he | he
      · exact h.small e he
      · rw [List.mem_singleton.mp he]
        exact ⟨huser, hlen⟩
  | region r t grows hregions hmade hrec =>
    have htake : MayTake env m.log .region r := hmay (.take .region r) (by simp [since])
    have hsane : Sane env .region r :=
      ⟨htake.1, htake.2.1, fun _ => ⟨htake.2.2.1 rfl, hmade⟩, nofun⟩
    have hfits : r.Fits := by
      obtain ⟨len, hne, hle, hsize⟩ := hmade
      exact ⟨hsize ▸ wholeGrains_pos (grain_pos _) hne hle, htake.1⟩
    have hapart : ∀ q ∈ m.table.ranges, r.Apart q := fun q hq =>
      (htake.2.2.2 q (mem_inUse.mpr ⟨_, h.table q hq⟩)).2
    obtain ⟨horder, hmem⟩ := RegionTable.record_inOrder h.order hfits hapart hrec
    refine ⟨h.separate.take hsane htake, horder, fun q hq => ?_, ?_,
      fun f hf => held_say_take (h.files f hf), h.nodup, h.small⟩
    · rcases (hmem q).mp hq with rfl | hq
      · exact held_say_take_self _ _
      · exact held_say_take (h.table q hq)
    · rw [hregions]
      nofun
  | heap r hmade =>
    have htake : MayTake env m.log .heap r := hmay (.take .heap r) (by simp [since, say])
    exact ⟨h.separate.take ⟨htake.1, htake.2.1, nofun, fun _ => hmade⟩ htake, h.order,
      fun q hq => held_say_take (h.table q hq), h.without,
      fun f hf => held_say_take (h.files f hf), h.nodup, h.small⟩
  | refused k r hk =>
    have htake : MayTake env m.log k r := hmay (.take k r) (by simp [since, say])
    have hfresh : r ∉ held k m.log := fun hmem =>
      (htake.2.2.2 r (mem_inUse.mpr ⟨_, hmem⟩)).1 rfl
    exact h.relog fun _ => held_refused hfresh

theorem held_say_other {e : MemEvent} {k : MemSource} (htake : e.takes k = none)
    (hgive : e.gives k = none) : held k (m.log ++ [e]) = held k m.log :=
  History.held_other htake hgive

/-- **What one `munmap` keeps.** -/
theorem Inv.unmapped (h : Inv env m) {addr len : ℕ} (hn : Unmapped env m addr len n) :
    Inv env n := by
  cases hn with
  | same hnone => exact h
  | file i f hi hf haddr =>
    have hperm := removeAt_perm hf
    have hsub : ∀ e ∈ removeAt m.files i, e ∈ m.files := fun e he =>
      hperm.subset (List.mem_cons_of_mem f he)
    -- no other entry has the region that is given back
    have hnodup : ((f :: removeAt m.files i).map FileRegion.region).Nodup :=
      (hperm.map FileRegion.region).nodup_iff.mpr h.nodup
    rw [List.map_cons, List.nodup_cons] at hnodup
    refine ⟨h.separate.of_subset fun k => held_give_subset k, h.order,
      fun r hr => held_say_give (h.table r hr) nofun, h.without, fun e he => ?_, hnodup.2,
      fun e he => h.small e (hsub e he)⟩
    refine held_say_give (h.files e (hsub e he)) fun _ heq => hnodup.1 ?_
    rw [← heq]
    exact List.mem_map_of_mem he
  | region r t hregions hfile hrange hwhole hgiven =>
    obtain ⟨hr, hsub, -, -, hmem⟩ := RegionTable.unmap_eq_whole h.order hwhole
    refine ⟨h.separate.of_subset fun k => held_give_subset k, h.order.of_sublist hsub,
      fun q hq => ?_, ?_, fun f hf => held_say_give (h.files f hf) nofun, h.nodup, h.small⟩
    · exact held_say_give (h.table q (hsub.subset hq)) fun _ => ((hmem q).mp hq).2
    · rw [hregions]
      nofun
  | snapshot r t hregions hrange hwhole hgiven =>
    obtain ⟨hr, hsub, -, -, hmem⟩ := RegionTable.unmap_eq_whole h.order hwhole
    refine ⟨h.separate, h.order.of_sublist hsub, fun q hq =>
      h.table q (hsub.subset hq), ?_, h.files,
      h.nodup, h.small⟩
    rw [hregions]
    nofun
  | part lo hi hregions hrange => exact h.relog fun _ => held_say_other rfl rfl
  | free hfile hrange hgiven =>
    exact ⟨h.separate.of_subset fun k => held_give_subset k, h.order,
      fun r hr => held_say_give (h.table r hr) nofun, h.without,
      fun f hf => held_say_give (h.files f hf) nofun, h.nodup, h.small⟩

/-- What `msync` can lead to. -/
theorem msync_cases (addr : ℕ) (answer : Except KalError Unit) :
    (m.msync addr answer).1 = m ∨ ∃ r, (m.msync addr answer).1 = m.say (.sync r) := by
  unfold msync
  cases findFile m.files addr with
  | none => exact Or.inl rfl
  | some i =>
    simp only
    cases m.files[i]? with
    | none => exact Or.inl rfl
    | some f => exact Or.inr ⟨f.region, rfl⟩

/-- **What one call keeps.** -/
theorem Inv.step {l : MemLabel} (h : Inv env m) (hs : m.step env l = some n) : Inv env n := by
  cases l with
  | mmap q a =>
    simp only [Memory.step] at hs
    split_ifs at hs with hmay
    rw [← Option.some.inj hs]
    exact h.mapped (mmap_mapped q a) hmay
  | munmap addr len =>
    rw [← Option.some.inj hs]
    exact h.unmapped (munmap_unmapped addr len)
  | msync addr answer =>
    rw [← Option.some.inj hs]
    rcases msync_cases addr answer with heq | ⟨r, heq⟩
    · rw [heq]
      exact h
    · rw [heq]
      exact h.relog fun _ => held_say_other rfl rfl

theorem inv_of_reachable (h : Reachable (step env) start m) : Inv env m :=
  h.invariant inv_start fun _ _ _ hu hv => hu.step hv

/-! ## What reaches `kal_free` -/

/-- A `munmap` of an address that a file mapping claims, that a recorded range contains or that is
the snapshot's, or of a block of `kal_alloc` that is held, with its length. -/
def Names (env : MemEnv) (m : Memory) (addr len : ℕ) : Prop :=
  (∃ f ∈ m.files, f.Claims addr) ∨ (env.regions = true ∧ ∃ r ∈ m.table.ranges, r.Has addr) ∨
    env.okmFromSnapshot addr = true ∨ ⟨addr, wholeGrains okmPage len⟩ ∈ held .heap m.log

/-- Every `munmap` of a run names what somebody owns. -/
def StepNames (env : MemEnv) (m : Memory) : MemLabel → Prop
  | .munmap addr len => m.Names env addr len
  | _ => True

instance (addr len : ℕ) : Decidable (m.Names env addr len) :=
  inferInstanceAs (Decidable (_ ∨ _ ∨ _ ∨ _))

instance (l : MemLabel) : Decidable (m.StepNames env l) := by
  unfold StepNames
  split <;> infer_instance

/-- What `munmap` gives to `kal_free` was obtained from `kal_alloc` with that length,
and is held. -/
def FreesHeld (env : MemEnv) (m : Memory) (addr len : ℕ) : Prop :=
  ∀ r, MemEvent.give .heap r ∈ m.since (m.munmap env addr len).1 → r ∈ held .heap m.log

theorem findFile_eq_none_iff {files : List FileRegion} {addr : ℕ} :
    findFile files addr = none ↔ ∀ f ∈ files, ¬ f.Claims addr := by
  unfold findFile
  rw [List.findIdx?_eq_none_iff]
  simp

/-- **When `munmap` frees only what it may.** -/
theorem freesHeld_iff (h : Inv env m) (addr len : ℕ) :
    m.FreesHeld env addr len ↔ m.Names env addr len := by
  have hfile : findFile m.files addr ≠ none → ∃ f ∈ m.files, f.Claims addr := by
    intro hne
    by_contra hall
    refine hne (findFile_eq_none_iff.mpr fun f hf hc => hall ⟨f, hf, hc⟩)
  have hrange : findRange m.table.ranges addr ≠ none → ∃ r ∈ m.table.ranges, r.Has addr := by
    intro hne
    by_contra hall
    refine hne ((find_eq_none_iff h.order).mpr fun r hr hc => hall ⟨r, hr, hc⟩)
  unfold FreesHeld
  generalize hn : (m.munmap env addr len).1 = n
  have hu : Unmapped env m addr len n := hn ▸ munmap_unmapped addr len
  cases hu with
  | same hnone =>
    refine ⟨fun _ => ?_, fun _ r hr => by simp [since] at hr⟩
    rcases hnone with hne | ⟨hregions, hne⟩ | hgiven
    · exact Or.inl (hfile hne)
    · exact Or.inr (Or.inl ⟨hregions, hrange hne⟩)
    · exact Or.inr (Or.inr (Or.inl hgiven))
  | file i f hi hf haddr =>
    refine ⟨fun _ => Or.inl (hfile (by simp [hi])), fun _ r hr => ?_⟩
    simp [since, say] at hr
  | region r t hregions hfile' hrange' hwhole hgiven =>
    refine ⟨fun _ => Or.inr (Or.inl ⟨hregions, hrange hrange'⟩), fun _ r hr => ?_⟩
    simp [since, say] at hr
  | snapshot r t hregions hrange' hwhole hgiven =>
    refine ⟨fun _ => Or.inr (Or.inl ⟨hregions, hrange hrange'⟩), fun _ r hr => ?_⟩
    simp [since] at hr
  | part lo hi hregions hrange' =>
    refine ⟨fun _ => Or.inr (Or.inl ⟨hregions, hrange hrange'⟩), fun _ r hr => ?_⟩
    simp [since, say] at hr
  | free hfile' hrange' hgiven =>
    -- the one case in which `kal_free` is called
    have hsince : m.since (m.say (.give .heap ⟨addr, wholeGrains okmPage len⟩)) =
        [.give .heap ⟨addr, wholeGrains okmPage len⟩] := by simp [since, say]
    rw [hsince]
    constructor
    · intro hall
      exact Or.inr (Or.inr (Or.inr (hall _ (List.mem_singleton.mpr rfl))))
    · rintro (⟨f, hf, hc⟩ | ⟨hregions, r, hr, hc⟩ | hsnap | hheld) q hq
      · exact absurd hc (findFile_eq_none_iff.mp hfile' f hf)
      · exact absurd hc ((find_eq_none_iff h.order).mp (hrange' hregions) r hr)
      · rw [hgiven] at hsnap
        cases hsnap
      · obtain rfl : q = ⟨addr, wholeGrains okmPage len⟩ := by simpa using hq
        exact hheld

theorem givesHeld_say {e : MemEvent} {k : MemSource} (h : GivesHeld k m.log)
    (he : ∀ r, e = .give k r → r ∈ held k m.log) : GivesHeld k (m.log ++ [e]) :=
  History.always_snoc.mpr ⟨h, he⟩

/-- One call that names what somebody owns gives to `kal_free` what is held. -/
theorem givesHeld_step {l : MemLabel} (h : Inv env m) (hg : GivesHeld .heap m.log)
    (hl : m.StepNames env l) (hs : m.step env l = some n) : GivesHeld .heap n.log := by
  cases l with
  | mmap q a =>
    simp only [Memory.step] at hs
    split_ifs at hs with hmay
    obtain rfl := Option.some.inj hs
    clear hmay hs
    have hn : Mapped env m (m.mmap env q a).1 := mmap_mapped q a
    generalize (m.mmap env q a).1 = n at hn
    cases hn with
    | same => exact hg
    | file f cap huser hlen => exact givesHeld_say hg nofun
    | region r t grows hregions hmade hrec => exact givesHeld_say hg nofun
    | heap r hmade => exact givesHeld_say hg nofun
    | refused k r hk =>
      refine givesHeld_say (m := m.say (.take k r)) (givesHeld_say hg nofun) fun q hq => ?_
      cases hq
      exact absurd rfl hk
  | munmap addr len =>
    obtain rfl := Option.some.inj hs
    have hfrees := (freesHeld_iff h addr len).mpr hl
    unfold FreesHeld at hfrees
    have hn : Unmapped env m addr len (m.munmap env addr len).1 := munmap_unmapped addr len
    generalize (m.munmap env addr len).1 = n at hn hfrees
    cases hn with
    | same hnone => exact hg
    | file i f hi hf haddr => exact givesHeld_say hg nofun
    | region r t hregions hfile hrange hwhole hgiven => exact givesHeld_say hg nofun
    | snapshot r t hregions hrange hwhole hgiven => exact hg
    | part lo hi hregions hrange => exact givesHeld_say hg nofun
    | free hfile hrange hgiven =>
      refine givesHeld_say hg fun r hr => hfrees r ?_
      simp [since, say, hr]
  | msync addr answer =>
    obtain rfl := Option.some.inj hs
    rcases msync_cases addr answer with heq | ⟨r, heq⟩
    · rw [heq]
      exact hg
    · rw [heq]
      exact givesHeld_say hg nofun

end Memory

/-- **What `munmap` gives to `kal_free`.** In every run in which every `munmap` names what somebody
owns, each block it frees came from `kal_alloc`, with that length, and was not freed since. And in
every state of any run, a `munmap` frees only such a block exactly when it names what somebody
owns. -/
theorem frees_what_was_allocated (env : MemEnv) :
    (∀ m, Reachable (restrict (Memory.step env) (Memory.StepNames env)) Memory.start m →
        GivesHeld .heap m.log) ∧
      ∀ m, Reachable (Memory.step env) Memory.start m → ∀ addr len,
        (m.FreesHeld env addr len ↔ m.Names env addr len) := by
  constructor
  · intro m hm
    have hboth : m.Inv env ∧ GivesHeld .heap m.log := by
      refine hm.invariant (I := fun m => Memory.Inv env m ∧ GivesHeld .heap m.log)
        ⟨Memory.inv_start, History.always_nil _⟩ ?_
      intro u l v hu hv
      obtain ⟨hl, hstep⟩ := restrict_eq_some.mp hv
      exact ⟨hu.1.step hstep, Memory.givesHeld_step hu.1 hu.2 hl hstep⟩
    exact hboth.2
  · intro m hm addr len
    exact Memory.freesHeld_iff (Memory.inv_of_reachable hm) addr len

theorem twoPages_lt : 8192 < 2 ^ 64 := by decide

/-- An anonymous private mapping of `len` bytes. -/
def anonymous (len : ℕ) (h : len < 2 ^ 64) : MapRequest where
  addr := 0
  len := len
  write := true
  exec := false
  shared := false
  priv := true
  fixed := false
  anon := true
  fd := -1
  off := 0
  len_lt := h

/-- A program without regions maps a block and unmaps it. -/
theorem frees_what_was_allocated_block :
    ∃ m, run (restrict (Memory.step ⟨true, false, 4096, none⟩)
          (Memory.StepNames ⟨true, false, 4096, none⟩)) Memory.start
        [.mmap (anonymous 5000 (by decide)) ⟨.badFd, .ok 0, none, some 8192, true⟩,
          .munmap 8192 5000] = some m ∧
      m.log = [.take .heap ⟨8192, 8192⟩, .give .heap ⟨8192, 8192⟩] ∧ GivesHeld .heap m.log := by
  have hsome : (run (restrict (Memory.step ⟨true, false, 4096, none⟩)
        (Memory.StepNames ⟨true, false, 4096, none⟩)) Memory.start
      [.mmap (anonymous 5000 (by decide)) ⟨.badFd, .ok 0, none, some 8192, true⟩,
        .munmap 8192 5000]).isSome := by decide +kernel
  obtain ⟨m, hm⟩ := Option.isSome_iff_exists.mp hsome
  refine ⟨m, hm, ?_, (frees_what_was_allocated _).1 m ⟨_, hm⟩⟩
  exact observe hm Memory.log (by decide +kernel)

/-- Where there are regions, the second `munmap` of a range reaches `kal_free`, which never gave
it. -/
theorem second_munmap_frees :
    ¬ ∀ env m, Reachable (Memory.step env) Memory.start m → GivesHeld .heap m.log := by
  intro hall
  have hsome : (run (Memory.step ⟨true, true, 4096, none⟩) Memory.start
      [.mmap (anonymous 4096 (by decide)) ⟨.badFd, .ok 0, some 8192, none, true⟩,
        .munmap 8192 4096, .munmap 8192 4096]).isSome := by decide +kernel
  obtain ⟨m, hm⟩ := Option.isSome_iff_exists.mp hsome
  have hlog : m.log = [.take .region ⟨8192, 4096⟩, .give .region ⟨8192, 4096⟩,
      .give .heap ⟨8192, 4096⟩] := observe hm Memory.log (by decide +kernel)
  have hgives := hall _ m ⟨_, hm⟩
  rw [hlog] at hgives
  have hmem := hgives [.take .region ⟨8192, 4096⟩, .give .region ⟨8192, 4096⟩] _ [] rfl _ rfl
  exact absurd hmem (by decide +kernel)

/-! ## Which mapping is released -/

/-- An address of a file mapping: within the length it was made with, and mapped of the file. -/
def FileRegion.Inside (f : FileRegion) (addr : ℕ) : Prop :=
  f.user ≤ addr ∧ addr < f.user + f.userLen ∧ f.region.Has addr

namespace Memory

variable {env : MemEnv} {m n : Memory}

/-- `munmap` of the address and length that a mapping was made with releases it and no other, and
`msync` of an address of a file mapping reaches that one. -/
structure ReleasesNamed (env : MemEnv) (m : Memory) : Prop where
  file : ∀ f ∈ m.files, ∃ files, (f :: files).Perm m.files ∧
    m.munmap env f.user f.userLen =
      ({ m with files := files }.say (.give .map f.region), .ok 0)
  range : ∀ r ∈ m.table.ranges, ∀ len, MadeWith env.grain r.size len →
    ∃ ranges, (r :: ranges).Perm m.table.ranges ∧
      m.munmap env r.base len =
        ({ m with table := ⟨ranges, m.table.cap⟩ }.say (.give .region r), .ok 0)
  block : ∀ r ∈ held .heap m.log, ∀ len, MadeWith okmPage r.size len →
    m.munmap env r.base len = (m.say (.give .heap r), .ok 0)
  sync : ∀ f ∈ m.files, ∀ addr, f.Inside addr → ∀ answer,
    (m.msync addr answer).1 = m.say (.sync f.region)

/-- No file mapping is recorded past the top of the address space, nor over an address of a file
mapping recorded behind it, nor over the address of a range or of a block. -/
structure Unclaimed (m : Memory) : Prop where
  top : ∀ f ∈ m.files, f.user + f.userLen < 2 ^ 64
  files : ∀ (i j : ℕ) (f e : FileRegion), j < i → m.files[i]? = some f → m.files[j]? = some e →
    ∀ addr, addr = f.user ∨ f.Inside addr → ¬ e.Claims addr
  ranges : ∀ f ∈ m.files, ∀ r ∈ m.table.ranges, ¬ f.Claims r.base
  blocks : ∀ f ∈ m.files, ∀ r ∈ held .heap m.log, ¬ f.Claims r.base

/-- The search of `okm_map.c`: the first entry that claims the address. -/
theorem findFile_eq_some_iff {files : List FileRegion} {addr i : ℕ} :
    findFile files addr = some i ↔
      (∃ f, files[i]? = some f ∧ f.Claims addr) ∧
        ∀ j < i, ∀ e, files[j]? = some e → ¬ e.Claims addr := by
  unfold findFile
  rw [List.findIdx?_eq_some_iff_getElem]
  constructor
  · rintro ⟨hi, hclaims, hfirst⟩
    refine ⟨⟨_, List.getElem?_eq_getElem hi, by simpa using hclaims⟩, fun j hj e he => ?_⟩
    obtain ⟨hjl, rfl⟩ := List.getElem?_eq_some_iff.mp he
    simpa using hfirst j hj
  · rintro ⟨⟨f, hf, hclaims⟩, hfirst⟩
    obtain ⟨hi, rfl⟩ := List.getElem?_eq_some_iff.mp hf
    refine ⟨hi, by simpa using hclaims, fun j hj => ?_⟩
    simpa using hfirst j hj _ (List.getElem?_eq_getElem _)

/-- Two entries with one region are one. -/
theorem Inv.eq_of_region (h : Inv env m) {i j : ℕ} {f e : FileRegion} (hi : m.files[i]? = some f)
    (hj : m.files[j]? = some e) (heq : f.region = e.region) : i = j := by
  obtain ⟨hil, rfl⟩ := List.getElem?_eq_some_iff.mp hi
  obtain ⟨hjl, rfl⟩ := List.getElem?_eq_some_iff.mp hj
  have hlen : (m.files.map FileRegion.region).length = m.files.length := List.length_map _
  refine (@List.Nodup.getElem_inj_iff _ _ h.nodup i (hlen ▸ hil) j (hlen ▸ hjl)).mp ?_
  simpa using heq

theorem log_say (e : MemEvent) : (m.say e).log = m.log ++ [e] := rfl

/-- Two calls that say one event each have said the same. -/
theorem say_inj {e e' : MemEvent} (hm : m.log = n.log) (h : m.say e = n.say e') : e = e' := by
  have := congrArg Memory.log h
  rw [log_say, log_say, hm] at this
  exact List.singleton_inj.mp (List.append_cancel_left this)

theorem munmap_of_claimed {addr len i : ℕ} {f : FileRegion} (hi : findFile m.files addr = some i)
    (hf : m.files[i]? = some f) :
    m.munmap env addr len =
      if addr ≠ f.user then (m, .error .einval)
      else ({ m with files := removeAt m.files i }.say (.give .map f.region), .ok 0) := by
  unfold munmap okmMapUnmap
  simp only [hi, hf]
  by_cases haddr : addr = f.user
  · rw [if_neg (not_not.mpr haddr), if_neg (not_not.mpr haddr)]
  · rw [if_pos haddr, if_pos haddr]

theorem munmap_of_unclaimed {addr len : ℕ} (hnone : findFile m.files addr = none) :
    m.munmap env addr len =
      match m.okmRegionUnmap env addr len with
      | some r => r
      | none =>
        if env.okmFromSnapshot addr then (m, .ok 0)
        else (m.say (.give .heap ⟨addr, wholeGrains okmPage len⟩), .ok 0) := by
  unfold munmap okmMapUnmap
  simp only [hnone]

theorem msync_of_found {addr i : ℕ} {f : FileRegion} (hi : findFile m.files addr = some i)
    (hf : m.files[i]? = some f) (answer : Except KalError Unit) :
    (m.msync addr answer).1 = m.say (.sync f.region) := by
  unfold msync
  simp only [hi, hf]

/-- A claimed address is found, at an entry that claims it. -/
theorem exists_found {addr : ℕ} {f : FileRegion} (hf : f ∈ m.files) (hc : f.Claims addr) :
    ∃ i e, findFile m.files addr = some i ∧ m.files[i]? = some e := by
  cases hfind : findFile m.files addr with
  | none => exact absurd hc (findFile_eq_none_iff.mp hfind f hf)
  | some i =>
    obtain ⟨⟨e, he, -⟩, -⟩ := findFile_eq_some_iff.mp hfind
    exact ⟨i, e, rfl, he⟩

/-- A range is where its own address is looked for. -/
theorem Inv.unmap_range (h : Inv env m) {r : Range} (hr : r ∈ m.table.ranges) {len : ℕ}
    (hmade : MadeWith env.grain r.size len) :
    ∃ ranges, (r :: ranges).Perm m.table.ranges ∧
      m.table.unmap env.grain r.base len = .whole r ⟨ranges, m.table.cap⟩ := by
  obtain ⟨i, hi, rfl⟩ := List.getElem_of_mem hr
  have hget := List.getElem?_eq_getElem hi
  have hfits := h.order.1 _ hr
  have hfind : findRange m.table.ranges m.table.ranges[i].base = some i :=
    (find_eq_some_iff h.order).mpr ⟨_, hget, le_rfl, Nat.lt_add_of_pos_right hfits.1⟩
  have haligned := ((h.separate.sane _ _ (h.table _ hr)).region rfl).1
  refine ⟨m.table.ranges.eraseIdx i, List.getElem_cons_eraseIdx_perm hi, ?_⟩
  -- the part named is the whole of the range
  have hpart : RegionTable.partOf env.grain m.table.ranges[i] m.table.ranges[i].base len =
      (m.table.ranges[i].base, m.table.ranges[i].stop) := by
    unfold RegionTable.partOf Range.stop
    rw [hmade.2.2]
    simp
  unfold RegionTable.unmap
  simp only [hfind, hget, hpart, haligned]
  simp

theorem Inv.not_has_base (h : Inv env m) {r : Range} (hr : r ∈ held .heap m.log) :
    findRange m.table.ranges r.base = none := by
  rw [find_eq_none_iff h.order]
  intro q hq hhas
  obtain ⟨hbase, hapart⟩ := h.separate.apart .heap .region r q hr (h.table q hq) (by simp)
  unfold Range.Apart at hapart
  unfold Range.Has at hhas
  omega

theorem Unclaimed.claims_user (h : Inv env m) (hu : m.Unclaimed) {f : FileRegion}
    (hf : f ∈ m.files) {addr : ℕ} (haddr : addr = f.user ∨ f.Inside addr) : f.Claims addr := by
  have htop := hu.top f hf
  have hpos := (h.small f hf).2.1
  unfold FileRegion.Claims
  rw [word_eq htop]
  rcases haddr with rfl | ⟨hlo, hhi, -⟩
  · omega
  · exact ⟨hlo, hhi⟩

theorem Unclaimed.find_file (h : Inv env m) (hu : m.Unclaimed) {i : ℕ} {f : FileRegion}
    (hf : m.files[i]? = some f) {addr : ℕ} (haddr : addr = f.user ∨ f.Inside addr) :
    findFile m.files addr = some i :=
  findFile_eq_some_iff.mpr
    ⟨⟨f, hf, hu.claims_user h (List.mem_of_getElem? hf) haddr⟩,
      fun j hj e he => hu.files i j f e hj hf he addr haddr⟩

/-- Where no file mapping claims what another mapping is found by, each is released. -/
theorem Unclaimed.releasesNamed (h : Inv env m) (hu : m.Unclaimed) : m.ReleasesNamed env where
  file f hf := by
    obtain ⟨i, hi, rfl⟩ := List.getElem_of_mem hf
    have hget := List.getElem?_eq_getElem hi
    refine ⟨removeAt m.files i, removeAt_perm hget, ?_⟩
    rw [munmap_of_claimed (hu.find_file h hget (Or.inl rfl)) hget, if_neg (not_not.mpr rfl)]
  range r hr len hmade := by
    have hnone : findFile m.files r.base = none :=
      findFile_eq_none_iff.mpr fun f hf => hu.ranges f hf r hr
    obtain ⟨ranges, hperm, hwhole⟩ := h.unmap_range hr hmade
    have hregions : env.regions ≠ false := by
      intro hfalse
      rw [h.without hfalse] at hr
      cases hr
    have hgiven := (h.separate.sane _ _ (h.table r hr)).given
    refine ⟨ranges, hperm, ?_⟩
    rw [munmap_of_unclaimed hnone]
    simp only [okmRegionUnmap, if_neg hregions, hwhole, hgiven]
    rfl
  block r hr len hmade := by
    have hnone : findFile m.files r.base = none :=
      findFile_eq_none_iff.mpr fun f hf => hu.blocks f hf r hr
    have hrange : m.table.unmap env.grain r.base len = .notFound :=
      unmap_notFound_iff.mpr (h.not_has_base hr)
    have hregion : m.okmRegionUnmap env r.base len = none := by
      unfold okmRegionUnmap
      rw [hrange]
      split_ifs <;> rfl
    rw [munmap_of_unclaimed hnone, hregion, (h.separate.sane _ _ hr).given, hmade.2.2]
    rfl
  sync f hf addr hin answer := by
    obtain ⟨i, hi, rfl⟩ := List.getElem_of_mem hf
    have hget := List.getElem?_eq_getElem hi
    exact msync_of_found (hu.find_file h hget (Or.inr hin)) hget answer

/-- Nothing but the file table gives back a file mapping. -/
theorem Unmapped.found_of_give {addr len : ℕ} {r : Range} (hn : Unmapped env m addr len n)
    (hlog : n.log = m.log ++ [.give .map r]) : findFile m.files addr ≠ none := by
  cases hn with
  | same hnone => simp at hlog
  | file i f hi hf haddr => simp [hi]
  | region r t hregions hfile hrange hwhole hgiven => simp [say] at hlog
  | snapshot r t hregions hrange hwhole hgiven => simp at hlog
  | part lo hi hregions hrange => simp [say] at hlog
  | free hfile hrange hgiven => simp [say] at hlog

/-- What is released through the file table was found there. -/
theorem ReleasesNamed.found (h : Inv env m) (hrel : m.ReleasesNamed env) {i : ℕ} {f : FileRegion}
    (hf : m.files[i]? = some f) {addr : ℕ} (haddr : addr = f.user ∨ f.Inside addr) :
    findFile m.files addr = some i := by
  have hmem := List.mem_of_getElem? hf
  cases hfind : findFile m.files addr with
  | none =>
    exfalso
    rcases haddr with rfl | hin
    · obtain ⟨files, -, heq⟩ := hrel.file f hmem
      have hu : Unmapped env m f.user f.userLen (m.munmap env f.user f.userLen).1 :=
        munmap_unmapped f.user f.userLen
      rw [heq] at hu
      exact hu.found_of_give rfl hfind
    · have hsync := hrel.sync f hmem addr hin (.ok ())
      unfold msync at hsync
      rw [hfind] at hsync
      have := congrArg (fun m => m.log.length) hsync
      simp [say] at this
  | some j =>
    obtain ⟨⟨e, he, -⟩, -⟩ := findFile_eq_some_iff.mp hfind
    rcases haddr with rfl | hin
    · obtain ⟨files, -, heq⟩ := hrel.file f hmem
      rw [munmap_of_claimed hfind he] at heq
      split_ifs at heq with hne
      · cases (congrArg Prod.snd heq)
      · have hsame := say_inj (by rfl) (congrArg Prod.fst heq)
        have hregion : e.region = f.region := by simpa using hsame
        rw [h.eq_of_region he hf hregion]
    · have hsync := hrel.sync f hmem addr hin (.ok ())
      rw [msync_of_found hfind he] at hsync
      have hregion : e.region = f.region := by simpa using say_inj rfl hsync
      rw [h.eq_of_region he hf hregion]

/-- A range or a block is not released where a file mapping claims its address. -/
theorem not_claims_of_give {addr len : ℕ} {k : MemSource} {r : Range} (hk : k ≠ .map)
    (heq : ∃ n : Memory, m.munmap env addr len = (n.say (.give k r), .ok 0) ∧ n.log = m.log) :
    ∀ f ∈ m.files, ¬ f.Claims addr := by
  intro f hf hc
  obtain ⟨n, heq, hn⟩ := heq
  obtain ⟨i, e, hfind, he⟩ := exists_found hf hc
  rw [munmap_of_claimed hfind he] at heq
  split_ifs at heq with hne
  · cases (congrArg Prod.snd heq)
  · have hsame := say_inj (by exact hn.symm) (congrArg Prod.fst heq)
    rw [MemEvent.give.injEq] at hsame
    exact hk hsame.1.symm

theorem ReleasesNamed.unclaimed (h : Inv env m) (hrel : m.ReleasesNamed env) : m.Unclaimed where
  top f hf := by
    obtain ⟨i, hi, rfl⟩ := List.getElem_of_mem hf
    have hget := List.getElem?_eq_getElem hi
    obtain ⟨⟨e, he, hc⟩, -⟩ := findFile_eq_some_iff.mp (hrel.found h hget (Or.inl rfl))
    rw [hget] at he
    obtain rfl := Option.some.inj he
    -- an extent that passes the top ends below its beginning
    obtain ⟨huser, -, hlen⟩ := h.small _ hf
    unfold FileRegion.Claims word at hc
    omega
  files i j f e hj hf he addr haddr :=
    (findFile_eq_some_iff.mp (hrel.found h hf haddr)).2 j hj e he
  ranges f hf r hr := by
    obtain ⟨-, len, hmade⟩ := (h.separate.sane _ _ (h.table r hr)).region rfl
    obtain ⟨ranges, -, heq⟩ := hrel.range r hr len hmade
    have hk : MemSource.region ≠ .map := nofun
    exact not_claims_of_give hk ⟨{ m with table := ⟨ranges, m.table.cap⟩ }, heq, rfl⟩ f hf
  blocks f hf r hr := by
    obtain ⟨len, hmade⟩ := (h.separate.sane _ _ hr).heap rfl
    have hk : MemSource.heap ≠ .map := nofun
    exact not_claims_of_give hk ⟨m, hrel.block r hr len hmade, rfl⟩ f hf

end Memory

/-- **Which mapping is released.** In every state of every run, where what the environment answers
with is apart, `munmap` of the address and length that a mapping was made with releases that mapping
and no other, and `msync` reaches the file mapping that an address is of, exactly when no file
mapping is recorded past the top of the address space or over the address of another mapping that is
found behind it. -/
theorem munmap_releases_iff {env : MemEnv} {m : Memory}
    (h : Reachable (Memory.step env) Memory.start m) : m.ReleasesNamed env ↔ m.Unclaimed :=
  ⟨fun hrel => hrel.unclaimed (Memory.inv_of_reachable h),
    fun hu => hu.releasesNamed (Memory.inv_of_reachable h)⟩

/-- A private mapping of a file from its beginning. -/
def ofFile (len : ℕ) (h : len < 2 ^ 64) : MapRequest where
  addr := 0
  len := len
  write := false
  exec := false
  shared := false
  priv := true
  fixed := false
  anon := false
  fd := 3
  off := 0
  len_lt := h

/-- A mapping of two pages of a file of a hundred bytes, then an anonymous one behind its first
page. -/
def longFile : List MemLabel :=
  [.mmap (ofFile 8192 (by decide)) ⟨.file 100, .ok 65536, none, none, true⟩,
    .mmap (anonymous 4096 (by decide)) ⟨.badFd, .ok 0, some 69632, none, true⟩]

/-- A mapping of one page of a file, and an anonymous one behind it. -/
def shortFile : List MemLabel :=
  [.mmap (ofFile 4096 (by decide)) ⟨.file 100, .ok 65536, none, none, true⟩,
    .mmap (anonymous 4096 (by decide)) ⟨.badFd, .ok 0, some 69632, none, true⟩]

/-- The extents of the two mappings do not meet, and each is released. -/
theorem munmap_releases_iff_short :
    ∃ m, run (Memory.step ⟨true, true, 4096, none⟩) Memory.start shortFile = some m ∧
      m.ReleasesNamed ⟨true, true, 4096, none⟩ := by
  have hsome : (run (Memory.step ⟨true, true, 4096, none⟩) Memory.start shortFile).isSome := by
    decide +kernel
  obtain ⟨m, hm⟩ := Option.isSome_iff_exists.mp hsome
  refine ⟨m, hm, (munmap_releases_iff ⟨_, hm⟩).mpr ?_⟩
  have hfiles : m.files = [⟨65536, 4096, 65536, 100⟩] :=
    observe hm Memory.files (by decide +kernel)
  have hranges : m.table.ranges = [⟨69632, 4096⟩] :=
    observe hm (fun m => m.table.ranges) (by decide +kernel)
  have hheap : held .heap m.log = ∅ :=
    observe hm (fun m => held .heap m.log) (by decide +kernel)
  constructor
  · simp [hfiles]
  · intro i j f e hj hf he
    rw [hfiles] at hf he
    have hi := (List.getElem?_eq_some_iff.mp hf).1
    simp at hi
    omega
  · simp [hfiles, hranges, FileRegion.Claims, word]
  · simp [hheap]

/-- The file mapping is recorded over the anonymous one, and `munmap` of that is refused. -/
theorem munmap_misses_claimed :
    ¬ ∀ env m, Reachable (Memory.step env) Memory.start m → m.ReleasesNamed env := by
  intro hall
  have hsome : (run (Memory.step ⟨true, true, 4096, none⟩) Memory.start longFile).isSome := by
    decide +kernel
  obtain ⟨m, hm⟩ := Option.isSome_iff_exists.mp hsome
  have hranges : m.table.ranges = [⟨69632, 4096⟩] :=
    observe hm (fun m => m.table.ranges) (by decide +kernel)
  have hanswer : (m.munmap ⟨true, true, 4096, none⟩ 69632 4096).2 = .error .einval :=
    observe hm (fun m => (m.munmap ⟨true, true, 4096, none⟩ 69632 4096).2) rfl
  obtain ⟨ranges, -, heq⟩ := (hall _ m ⟨_, hm⟩).range ⟨69632, 4096⟩ (by simp [hranges]) 4096
    ⟨by decide, by decide, by decide⟩
  have hok := congrArg Prod.snd heq
  rw [hanswer] at hok
  cases hok

end OpenkalMusl
