import Mathlib.Data.List.Perm.Subperm
import OpenkalMusl.Chaining.Chains
import OpenkalMusl.Images.SymbolHash
import OpenkalMusl.Port.Basic

/-!
# The exports of this image

`self_symbol` of `okm_image.c`: an export is looked up through the `DT_HASH` table of the image's
own dynamic section. The bucket is chosen by the hash of the name, and the chain of the bucket is
walked to the first symbol that is defined, not local and of that name.

The hash is computed in a word of 64 bits, and the table was built with that of 32. Where a sum
carries out of the 32 bits the two choose different buckets, unless the number of buckets divides
what was carried.

## Main definitions

* `selfSymbol`: the lookup
* `ImageMemory.Tables`: a dynamic section with its three tables, the chains of the 32-bit hash
* `Tables.Finds`: an address, or null, that is the right answer for a name

## Main results

* `selfSymbol_walks`: the walk ends
* `selfSymbol_finds_iff`: when the lookup gives the export of a name
-/

namespace OpenkalMusl

open Chaining

/-! ## The tables in memory -/

/-- A name: its bytes before the terminating zero. -/
structure CName where
  bytes : List UInt8
  plain : 0 ∉ bytes

/-- The part of `Elf64_Sym` that is read. -/
structure ElfSym where
  stName : ℕ
  stInfo : ℕ
  stShndx : ℕ
  stValue : ℕ
  deriving DecidableEq

structure ElfDyn where
  dTag : ℕ
  dPtr : ℕ
  deriving DecidableEq

structure ElfPhdr where
  pType : ℕ
  pVaddr : ℕ
  deriving DecidableEq

/-- The memory of this image, as the lookup reads it: its header, where it has one, with its program
headers, its dynamic section, and what stands at an address. -/
structure ImageMemory where
  ehdr : Option (ℕ × List ElfPhdr)
  dynamic : Option (List ElfDyn)
  symAt : ℕ → ElfSym
  wordAt : ℕ → BitVec 32
  byteAt : ℕ → UInt8

def ptLoad : ℕ := 1
def dtNull : ℕ := 0
def dtHash : ℕ := 4
def dtStrtab : ℕ := 5
def dtSymtab : ℕ := 6
def shnUndef : ℕ := 0
def stbLocal : ℕ := 0
def elfSymSize : ℕ := 24

/-- `ELF64_ST_BIND`. -/
def ElfSym.bind (s : ElfSym) : ℕ := s.stInfo >>> 4

/-- A symbol that the lookup does not pass over. -/
def ElfSym.exported (s : ElfSym) : Bool := !(s.stShndx = shnUndef || s.bind = stbLocal)

namespace ImageMemory

variable (m : ImageMemory)

/-- `self_base`. -/
def selfBase : ℕ :=
  match m.ehdr with
  | none => 0
  | some (eh, ph) =>
    match ph.find? fun p => p.pType = ptLoad with
    -- the first segment's own address is where the image would stand without being moved
    | some p => (eh + 2 ^ 64 - p.pVaddr) % 2 ^ 64
    | none => eh

/-- The table that the last entry of a tag names, and null where there is none. -/
def table (tag : ℕ) : ℕ :=
  ((m.dynamic.getD []).takeWhile fun d => d.dTag ≠ dtNull).foldl
    (fun t d => if d.dTag = tag then (m.selfBase + d.dPtr) % 2 ^ 64 else t) 0

/-- Whether `strcmp` of what stands at an address and a name is zero. -/
def named : ℕ → List UInt8 → Bool
  | a, [] => m.byteAt a = 0
  | a, c :: cs => m.byteAt a = c && named (a + 1) cs

/-- The `i`-th symbol. -/
def symbol (i : ℕ) : ElfSym := m.symAt (m.table dtSymtab + elfSymSize * i)

def nbucket : ℕ := (m.wordAt (m.table dtHash)).toNat
def nchain : ℕ := (m.wordAt (m.table dtHash + 4)).toNat

def bucket (b : ℕ) : ℕ := (m.wordAt (m.table dtHash + 4 * (2 + b))).toNat
def chain (i : ℕ) : ℕ := (m.wordAt (m.table dtHash + 4 * (2 + m.nbucket + i))).toNat

/-- Whether the `i`-th symbol is an export of the name. -/
def isExport (name : List UInt8) (i : ℕ) : Bool :=
  (m.symbol i).exported && m.named (m.table dtStrtab + (m.symbol i).stName) name

def address (i : ℕ) : ℕ := (m.selfBase + (m.symbol i).stValue) % 2 ^ 64

/-- `self_symbol`; nothing where the turns do not suffice for the chain. -/
def selfSymbol (turns : ℕ) (name : CName) : Option (Option ℕ) :=
  if m.dynamic = none then some none
  else if m.table dtSymtab = 0 ∨ m.table dtStrtab = 0 ∨ m.table dtHash = 0 then some none
  else
    -- the hash of 64 bits chooses the bucket, in a table that was built with that of 32
    (walk m.chain 0 (m.isExport name.bytes) turns
      (m.bucket ((symbolHash 64 name.bytes).toNat % m.nbucket))).map fun i => i.map m.address

/-- A dynamic section with its three tables. The chain of each bucket ends, and is of symbols whose
names have its hash; every export is on a chain. -/
structure Tables : Prop where
  dynamic : m.dynamic ≠ none
  symtab : m.table dtSymtab ≠ 0
  strtab : m.table dtStrtab ≠ 0
  hash : m.table dtHash ≠ 0
  buckets : 0 < m.nbucket
  chains : ∀ b < m.nbucket, ∃ l, Leads m.chain 0 (m.bucket b) l ∧
    (∀ i ∈ l, i < m.nchain ∧
      ∃ name : CName, m.named (m.table dtStrtab + (m.symbol i).stName) name.bytes = true ∧
        (symbolHash 32 name.bytes).toNat % m.nbucket = b) ∧
    ∀ i < m.nchain, ∀ name : CName, i ≠ 0 → m.isExport name.bytes i = true →
      (symbolHash 32 name.bytes).toNat % m.nbucket = b → i ∈ l

/-- The table has a defined symbol of that name that is not local. -/
def Exports (name : CName) (i : ℕ) : Prop :=
  i ≠ 0 ∧ i < m.nchain ∧ m.isExport name.bytes i = true

/-- The right answer for a name: the address of an export of that name, and null where there is
none. -/
def Finds (name : CName) (r : Option ℕ) : Prop :=
  match r with
  | some a => ∃ i, m.Exports name i ∧ a = m.address i
  | none => ∀ i, ¬ m.Exports name i

variable {m} {name : CName}

/-! ## Names -/

/-- What stands at an address is one name. -/
theorem eq_of_named {cs ds : List UInt8} {a : ℕ} (hcs : 0 ∉ cs) (hds : 0 ∉ ds)
    (h : m.named a cs = true) (h' : m.named a ds = true) : cs = ds := by
  induction cs generalizing ds a with
  | nil =>
    cases ds with
    | nil => rfl
    | cons d ds =>
      simp only [named, decide_eq_true_eq, Bool.and_eq_true] at h h'
      rw [← h'.1, h] at hds
      exact absurd List.mem_cons_self hds
  | cons c cs ih =>
    cases ds with
    | nil =>
      -- where the one name ends, the other has a byte that is not zero
      simp only [named, decide_eq_true_eq, Bool.and_eq_true] at h h'
      rw [← h.1, h'] at hcs
      exact absurd List.mem_cons_self hcs
    | cons d ds =>
      simp only [named, decide_eq_true_eq, Bool.and_eq_true] at h h'
      have htail := ih (fun hc => hcs (List.mem_cons_of_mem _ hc))
        (fun hd => hds (List.mem_cons_of_mem _ hd)) h.2 h'.2
      rw [htail, ← h.1, ← h'.1]

/-! ## The lookup -/

/-- A chain is no longer than the table. -/
theorem Tables.length_le (ht : m.Tables) {b : ℕ} (hb : b < m.nbucket) {l : List ℕ}
    (hl : Leads m.chain 0 (m.bucket b) l) : l.length ≤ m.nchain := by
  obtain ⟨l', hl', hmem, -⟩ := ht.chains b hb
  obtain rfl := hl.unique hl'
  have hsub : l ⊆ List.range m.nchain := fun i hi => List.mem_range.mpr (hmem i hi).1
  calc l.length ≤ (List.range m.nchain).length :=
        (List.subperm_of_subset hl.nodup hsub).length_le
    _ = m.nchain := List.length_range

/-- **The walk ends**: within a turn for each symbol and one more, and more turns change nothing. -/
theorem selfSymbol_walks (ht : m.Tables) (name : CName) :
    ∃ l, Leads m.chain 0 (m.bucket ((symbolHash 64 name.bytes).toNat % m.nbucket)) l ∧
      ∀ turns, m.nchain < turns →
        m.selfSymbol turns name = some ((l.find? (m.isExport name.bytes)).map m.address) := by
  have hb : (symbolHash 64 name.bytes).toNat % m.nbucket < m.nbucket := Nat.mod_lt _ ht.buckets
  obtain ⟨l, hl, -⟩ := ht.chains _ hb
  refine ⟨l, hl, fun turns hturns => ?_⟩
  unfold selfSymbol
  rw [if_neg ht.dynamic, if_neg (by simp [ht.symtab, ht.strtab, ht.hash]),
    walk_of_leads hl _ (lt_of_le_of_lt (ht.length_le hb hl) hturns), Option.map_some]

/-- An export of a name is on the chain of one bucket only. -/
theorem Tables.mem_chain_iff (ht : m.Tables) {b : ℕ} (hb : b < m.nbucket) {l : List ℕ}
    (hl : Leads m.chain 0 (m.bucket b) l) {i : ℕ} (hi : m.Exports name i) :
    i ∈ l ↔ (symbolHash 32 name.bytes).toNat % m.nbucket = b := by
  obtain ⟨l', hl', hmem, hall⟩ := ht.chains b hb
  obtain rfl := hl.unique hl'
  constructor
  · intro hil
    obtain ⟨-, name', hnamed, hhash⟩ := hmem i hil
    have hown := (Bool.and_eq_true _ _ ▸ hi.2.2 : _ ∧ _).2
    rw [eq_of_named name'.plain name.plain hnamed hown] at hhash
    exact hhash
  · exact hall i hi.2.1 name hi.1 hi.2.2

/-- Zero ends the chains. -/
theorem ne_zero_of_leads {next : ℕ → ℕ} {i : ℕ} {l : List ℕ} (hl : Leads next 0 i l) {j : ℕ}
    (hj : j ∈ l) : j ≠ 0 := by
  induction hl with
  | done => cases hj
  | step hi _ ih =>
    rcases List.mem_cons.mp hj with rfl | hj
    · exact hi
    · exact ih hj

/-- What is found on the chain of a bucket is an export of the name. -/
theorem Tables.exports_of_find (ht : m.Tables) {b : ℕ} (hb : b < m.nbucket) {l : List ℕ}
    (hl : Leads m.chain 0 (m.bucket b) l) {i : ℕ} (hi : l.find? (m.isExport name.bytes) = some i) :
    m.Exports name i := by
  obtain ⟨l', hl', hmem, -⟩ := ht.chains b hb
  obtain rfl := hl.unique hl'
  have hil := List.mem_of_find?_eq_some hi
  exact ⟨ne_zero_of_leads hl hil, (hmem i hil).1, List.find?_some hi⟩

/-- **When an export is found by its name.** On every dynamic section whose table was built with the
32-bit hash the lookup ends; and it gives the export of the name, or null where there is none,
exactly where there is none or the number of buckets divides what the sums of the name carry out of
32 bits. -/
theorem selfSymbol_finds_iff (ht : m.Tables) (name : CName) :
    ∃ r, (∀ turns, m.nchain < turns → m.selfSymbol turns name = some r) ∧
      (m.Finds name r ↔
        (∀ i, ¬ m.Exports name i) ∨ m.nbucket ∣ 2 ^ 32 * carriedDigits name.bytes) := by
  have hb : (symbolHash 64 name.bytes).toNat % m.nbucket < m.nbucket := Nat.mod_lt _ ht.buckets
  obtain ⟨l, hl, hwalk⟩ := selfSymbol_walks ht name
  refine ⟨_, hwalk, ?_⟩
  rw [← symbolHash_mod_eq_iff]
  cases hfind : l.find? (m.isExport name.bytes) with
  | some i =>
    -- an export is on the chain, so that the two hashes chose the same bucket
    have hi := ht.exports_of_find hb hl hfind
    have hsame := (ht.mem_chain_iff hb hl hi).mp (List.mem_of_find?_eq_some hfind)
    exact iff_of_true ⟨i, hi, rfl⟩ (Or.inr hsame.symm)
  | none =>
    -- null is right where there is no export, and an export would be on the chain of its bucket
    refine ⟨Or.inl, ?_⟩
    rintro (hnone | hsame)
    · exact hnone
    · intro i hi
      have hmem := (ht.mem_chain_iff hb hl hi).mpr hsame.symm
      exact absurd hi.2.2 (List.find?_eq_none.mp hfind i hmem)

end ImageMemory

/-! ## One export -/

/-- `hxxxxrzz`, whose last sum carries. -/
def carryingName : CName := ⟨[0x68, 0x78, 0x78, 0x78, 0x78, 0x72, 0x7a, 0x7a], by decide⟩

/-- An image with one export of that name, in the bucket `b` of `n`. -/
def oneExport (n b : ℕ) : ImageMemory where
  ehdr := none
  dynamic := some [⟨dtSymtab, 0x1000⟩, ⟨dtStrtab, 0x2000⟩, ⟨dtHash, 0x3000⟩]
  symAt a := if a = 0x1018 then ⟨1, 0x12, 5, 0x4000⟩ else ⟨0, 0, 0, 0⟩
  wordAt a :=
    if a = 0x3000 then BitVec.ofNat 32 n
    else if a = 0x3004 then 2#32
    else if a = 0x3008 + 4 * b then 1#32
    else 0#32
  byteAt a := if a < 0x2001 then 0 else (carryingName.bytes[a - 0x2001]?).getD 0

section OneExport

open ImageMemory

variable {n b : ℕ}

theorem table_oneExport : (oneExport n b).table dtSymtab = 0x1000 ∧
    (oneExport n b).table dtStrtab = 0x2000 ∧ (oneExport n b).table dtHash = 0x3000 := by
  refine ⟨?_, ?_, ?_⟩ <;>
  simp [table, oneExport, selfBase, dtNull, dtSymtab, dtStrtab, dtHash]

theorem wordAt_oneExport (a : ℕ) (ha : 0x3008 ≤ a) :
    ((oneExport n b).wordAt a).toNat = if a = 0x3008 + 4 * b then 1 else 0 := by
  unfold oneExport
  simp only
  rw [if_neg (by omega), if_neg (by omega)]
  split_ifs <;> rfl

theorem nbucket_oneExport (hn : n < 2 ^ 32) : (oneExport n b).nbucket = n := by
  unfold nbucket
  rw [table_oneExport.2.2]
  simpa [oneExport] using hn

theorem nchain_oneExport : (oneExport n b).nchain = 2 := by
  unfold nchain
  rw [table_oneExport.2.2]
  simp [oneExport]

theorem bucket_oneExport (c : ℕ) : (oneExport n b).bucket c = if c = b then 1 else 0 := by
  unfold bucket
  rw [table_oneExport.2.2, wordAt_oneExport _ (by omega)]
  exact if_congr (by omega) rfl rfl

theorem chain_oneExport (hn : n < 2 ^ 32) (hb : b < n) : (oneExport n b).chain 1 = 0 := by
  unfold chain
  rw [table_oneExport.2.2, nbucket_oneExport hn, wordAt_oneExport _ (by omega), if_neg (by omega)]

theorem byteAt_oneExport (k : ℕ) :
    (oneExport n b).byteAt (0x2001 + k) = (carryingName.bytes[k]?).getD 0 := by
  unfold oneExport
  simp only
  rw [if_neg (by omega), Nat.add_sub_cancel_left]

/-- The name stands behind the empty one, byte by byte. -/
theorem named_oneExport (cs : List UInt8) (k : ℕ) (h : carryingName.bytes.drop k = cs) :
    (oneExport n b).named (0x2001 + k) cs = true := by
  induction cs generalizing k with
  | nil =>
    unfold named
    rw [byteAt_oneExport, List.getElem?_eq_none (List.drop_eq_nil_iff.mp h)]
    rfl
  | cons c cs ih =>
    have hk : k < carryingName.bytes.length := by
      by_contra hle
      rw [List.drop_eq_nil_of_le (not_lt.mp hle)] at h
      cases h
    rw [List.drop_eq_getElem_cons hk] at h
    obtain ⟨rfl, hrest⟩ := List.cons.inj h
    unfold named
    rw [byteAt_oneExport, List.getElem?_eq_getElem hk, Nat.add_assoc, ih (k + 1) hrest]
    simp

theorem isExport_oneExport : (oneExport n b).isExport carryingName.bytes 1 = true := by
  have hsymbol : (oneExport n b).symbol 1 = ⟨1, 0x12, 5, 0x4000⟩ := by
    unfold symbol
    rw [table_oneExport.1]
    rfl
  unfold isExport
  rw [hsymbol, table_oneExport.2.1, Bool.and_eq_true]
  exact ⟨by decide, named_oneExport _ 0 List.drop_zero⟩

/-- Its table is well formed where the export is in the bucket of its 32-bit hash. -/
theorem tables_oneExport (hb : b < n) (hn : n < 2 ^ 32)
    (hhash : (symbolHash 32 carryingName.bytes).toNat % n = b) : (oneExport n b).Tables where
  dynamic := nofun
  symtab := by simp [table_oneExport.1]
  strtab := by simp [table_oneExport.2.1]
  hash := by simp [table_oneExport.2.2]
  buckets := by
    rw [nbucket_oneExport hn]
    omega
  chains := by
    have hone : ∀ name : CName, ∀ i < (oneExport n b).nchain, i ≠ 0 →
        (oneExport n b).isExport name.bytes i = true → name.bytes = carryingName.bytes ∧ i = 1 := by
      intro name i hi hne hexp
      rw [nchain_oneExport] at hi
      obtain rfl : i = 1 := by omega
      unfold isExport at hexp
      have hown := isExport_oneExport (n := n) (b := b)
      unfold isExport at hown
      rw [Bool.and_eq_true] at hexp hown
      exact ⟨eq_of_named name.plain carryingName.plain hexp.2 hown.2, rfl⟩
    intro c hc
    -- the bucket of the one export, or a chain that is empty
    by_cases hcb : c = b
    · refine ⟨[1], ?_, ?_, ?_⟩
      · rw [bucket_oneExport, if_pos hcb]
        refine .step (by decide) ?_
        rw [chain_oneExport hn hb]
        exact .done
      · intro i hi
        obtain rfl := List.mem_singleton.mp hi
        have hown := isExport_oneExport (n := n) (b := b)
        unfold isExport at hown
        rw [Bool.and_eq_true] at hown
        refine ⟨by rw [nchain_oneExport]; decide, carryingName, hown.2, ?_⟩
        rw [nbucket_oneExport hn, hcb]
        exact hhash
      · intro i hi name hne hexp _
        exact List.mem_singleton.mpr (hone name i hi hne hexp).2
    · refine ⟨[], ?_, nofun, ?_⟩
      · rw [bucket_oneExport, if_neg hcb]
        exact .done
      · intro i hi name hne hexp hname
        rw [(hone name i hi hne hexp).1, nbucket_oneExport hn] at hname
        exact absurd (hname.symm.trans hhash) hcb

end OneExport

/-- With one bucket the export is found. -/
theorem selfSymbol_finds_iff_one :
    ∃ r, (∀ turns, (oneExport 1 0).nchain < turns →
        (oneExport 1 0).selfSymbol turns carryingName = some r) ∧
      (oneExport 1 0).Finds carryingName r := by
  obtain ⟨r, hends, hiff⟩ := ImageMemory.selfSymbol_finds_iff
    (tables_oneExport (n := 1) (b := 0) (by decide) (by decide) (by decide)) carryingName
  exact ⟨r, hends, hiff.mpr (Or.inr (one_dvd _))⟩

/-- With three it is in the last, and the lookup ends in the first. -/
theorem export_missed :
    ¬ ∀ m : ImageMemory, m.Tables → ∀ name : CName, ∃ r,
      (∀ turns, m.nchain < turns → m.selfSymbol turns name = some r) ∧ m.Finds name r := by
  intro hall
  obtain ⟨r, hends, hfinds⟩ := hall (oneExport 3 2)
    (tables_oneExport (by decide) (by decide) (by decide)) carryingName
  have hnull : (oneExport 3 2).selfSymbol 3 carryingName = some none := by decide
  obtain rfl := Option.some.inj ((hends 3 (by decide)).symm.trans hnull)
  exact hfinds 1 ⟨by decide, by decide, isExport_oneExport⟩

end OpenkalMusl
