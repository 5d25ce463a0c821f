import Mathlib.Logic.Function.Basic
import OpenkalMusl.Memory.Regions

/-!
# Emulated thread-local variables

`okm_image.c`: a thread-local variable of the program is described by a control, and a thread's
storage for it is the value of a thread-specific key whose destructor, `tls_release`, gives the
storage back. A header in front of the storage counts how often the destructor sets the value again
instead.

musl runs the destructors of the values of a thread that ends in rounds, key by key
(`__pthread_tsd_run_dtors`): a value is cleared before its destructor is called, and another round
follows while one set a value, up to `PTHREAD_DESTRUCTOR_ITERATIONS` of them.

## Main definitions

* `EmutlsControl`: a variable, with how its storage is laid out
* `TlsThread`: the keys of the process and one thread's values, storage and stage
* `TlsThread.tlsRelease`, `TlsThread.getAddress`: the two functions of the port
* `TlsThread.step`: what the thread and its surroundings do, one call or one key at a time

## Main results

* `TlsThread.laid_storageAt`: where `aligned_alloc` answers, the variable is aligned and its header
  and itself lie in the block
* `TlsThread.getAddress_eq_some`, `TlsThread.step_turn`: what an answer and a turn of the loop do
-/

namespace OpenkalMusl

open Transition

/-! ## Controls -/

/-- `PTHREAD_KEYS_MAX` -/
def pthreadKeysMax : ℕ := 128

/-- `PTHREAD_DESTRUCTOR_ITERATIONS` -/
def destructorIterations : ℕ := 4

/-- `sizeof(struct okm_tls_header)`: a pointer, a key and a count. -/
def tlsHeaderSize : ℕ := 16

/-- `struct __emutls_control`, less the index of its key: the size and the alignment of a variable,
and the bytes it begins with. A size is one of an object, and an alignment a power of two. -/
structure EmutlsControl where
  size : ℕ
  align : ℕ
  value : Option (ℕ → UInt8)
  size_lt : size < 2 ^ 63
  align_pow : ∃ n, align = 2 ^ n

namespace EmutlsControl

variable (c : EmutlsControl)

/-- The alignment that is asked for: at least that of a pointer. -/
def alignment : ℕ := if c.align < 8 then 8 else c.align

/-- What stands before the variable: the header, padded to the alignment. -/
def lead : ℕ := word (tlsHeaderSize + c.alignment - 1) / c.alignment * c.alignment

/-- The length that is asked for. -/
def length : ℕ := word (c.lead + c.size + c.alignment - 1) / c.alignment * c.alignment

/-- The byte at an offset of a new variable. -/
def initial (offset : ℕ) : UInt8 :=
  match c.value with
  | some value => value offset
  | none => 0

theorem alignment_pos : 0 < c.alignment := by
  unfold alignment
  split <;> omega

/-- What is asked for is a multiple of the control's alignment. -/
theorem align_dvd_alignment : c.align ∣ c.alignment := by
  unfold alignment
  split
  · next h =>
    obtain ⟨n, hn⟩ := c.align_pow
    rw [hn] at h ⊢
    have hlt : n < 3 := (Nat.pow_lt_pow_iff_right (by decide)).mp (show 2 ^ n < 2 ^ 3 from h)
    exact pow_dvd_pow 2 hlt.le
  · exact dvd_rfl

/-- Rounding up does not go below. -/
theorem le_roundUp {a : ℕ} (h : 0 < a) (n : ℕ) : n ≤ (n + a - 1) / a * a := by
  have hdiv := Nat.div_add_mod (n + a - 1) a
  have hmod := Nat.mod_lt (n + a - 1) h
  rw [Nat.mul_comm] at hdiv
  omega

variable {c}

theorem lead_eq (h : c.alignment < 2 ^ 35) :
    c.lead = (tlsHeaderSize + c.alignment - 1) / c.alignment * c.alignment := by
  rw [lead, word_eq]
  unfold tlsHeaderSize
  omega

theorem header_le_lead (h : c.alignment < 2 ^ 35) : tlsHeaderSize ≤ c.lead := by
  rw [lead_eq h]
  exact le_roundUp c.alignment_pos _

theorem lead_lt (h : c.alignment < 2 ^ 35) : c.lead < 2 ^ 36 := by
  have hle := Nat.div_mul_le_self (tlsHeaderSize + c.alignment - 1) c.alignment
  rw [lead_eq h]
  unfold tlsHeaderSize at hle ⊢
  omega

/-- The variable fits behind what stands before it: no sum leaves the machine word. -/
theorem lead_add_size_le (h : c.alignment < 2 ^ 35) : c.lead + c.size ≤ c.length := by
  have hlead := lead_lt h
  have hsize := c.size_lt
  rw [length, word_eq (by omega)]
  exact le_roundUp c.alignment_pos _

theorem alignment_dvd_lead : c.alignment ∣ c.lead := Dvd.intro_left _ rfl

end EmutlsControl

/-- A block of a thread that `__emutls_get_address` made: the header `struct okm_tls_header` in
front of `addr`, the length of the block, and the variable it is for. -/
structure TlsStorage (ι : Type*) where
  control : ι
  addr : ℕ
  base : ℕ
  length : ℕ
  key : Fin pthreadKeysMax
  rounds : ℕ
  deriving DecidableEq

namespace TlsStorage

variable {ι : Type*}

/-- The block that `aligned_alloc` gave. -/
def block (st : TlsStorage ι) : Range := ⟨st.base, st.length⟩

/-- A byte of the variable. -/
def Has (c : EmutlsControl) (st : TlsStorage ι) (a : ℕ) : Prop := st.addr ≤ a ∧ a < st.addr + c.size

instance (c : EmutlsControl) (st : TlsStorage ι) (a : ℕ) : Decidable (st.Has c a) :=
  inferInstanceAs (Decidable (_ ∧ _))

/-- The variable is aligned, and the header and the variable lie in the block. -/
structure Laid (c : EmutlsControl) (st : TlsStorage ι) : Prop where
  aligned : c.align ∣ st.addr
  header : st.base + tlsHeaderSize ≤ st.addr
  inside : st.addr + c.size ≤ st.base + st.length

/-- Blocks that are apart begin at different places, and so do their variables. -/
theorem Laid.ne_of_apart {c c' : EmutlsControl} {st st' : TlsStorage ι} (h : st.Laid c)
    (h' : st'.Laid c') (hapart : st.block.Apart st'.block) :
    st.addr ≠ st'.addr ∧ st.base ≠ st'.base := by
  have hheader := h.header
  have hheader' := h'.header
  have hinside := h.inside
  have hinside' := h'.inside
  simp only [Range.Apart, block] at hapart
  unfold tlsHeaderSize at hheader hheader'
  omega

end TlsStorage

/-! ## The thread -/

/-- What is recorded as the destructor of a key. -/
inductive TlsDtor where
  | nodtor
  | tlsRelease
  | program
  deriving DecidableEq

/-- The stage of a thread: before it ends, at the key `i` in the round `j`, in a destructor of the
program with the key `i` next, or after the rounds. -/
inductive TlsPhase where
  | living
  | turn (j i : ℕ)
  | within (j i : ℕ)
  | ended
  deriving DecidableEq

/-- What the program set, and what was freed in which round. -/
inductive TlsEvent where
  | set (k : Fin pthreadKeysMax) (v : ℕ)
  | freed (addr j : ℕ)
  deriving DecidableEq

/-- The table of keys, the keys of the controls (`object.index`), and of one thread its values
(`tsd`, `tsd_used`), its storage, the memory, its stage and its history. -/
structure TlsThread (ι : Type*) where
  keys : Fin pthreadKeysMax → Option TlsDtor
  nextKey : Fin pthreadKeysMax
  index : ι → Option (Fin pthreadKeysMax)
  tsd : Fin pthreadKeysMax → ℕ
  used : Bool
  live : List (TlsStorage ι)
  mem : ℕ → UInt8
  phase : TlsPhase
  log : List TlsEvent

/-- What happens: the program creates or deletes a key, in this thread or another, and another
thread has the key of a variable made; this thread asks for a variable's address, with what the
allocator would answer, and sets a value; someone stores a byte; the thread ends, the loop turns to
its next key, and a destructor returns. -/
inductive TlsMove (ι : Type*) where
  | create (destructor : Bool)
  | delete (k : Fin pthreadKeysMax)
  | indexed (c : ι)
  | address (c : ι) (base : ℕ)
  | set (k : Fin pthreadKeysMax) (v : ℕ)
  | store (a : ℕ) (b : UInt8)
  | exit
  | turn
  | leave

namespace TlsThread

variable {ι : Type*} (controls : ι → EmutlsControl)

/-- A process that has no keys, and the thread as it begins. -/
def fresh (ι : Type*) : TlsThread ι where
  keys := fun _ => none
  nextKey := ⟨0, by decide⟩
  index := fun _ => none
  tsd := fun _ => 0
  used := false
  live := []
  mem := fun _ => 0
  phase := .living
  log := []

/-- `pthread_setspecific`: a value that is there already is not written. -/
def setspecific (s : TlsThread ι) (k : Fin pthreadKeysMax) (x : ℕ) : TlsThread ι :=
  if s.tsd k ≠ x then
    { s with
      tsd := Function.update s.tsd k x
      used := true }
  else s

section Setspecific

variable (s : TlsThread ι) (k : Fin pthreadKeysMax) (x : ℕ)

@[simp] theorem setspecific_keys : (s.setspecific k x).keys = s.keys := by
  unfold setspecific
  split <;> rfl

@[simp] theorem setspecific_index : (s.setspecific k x).index = s.index := by
  unfold setspecific
  split <;> rfl

@[simp] theorem setspecific_live : (s.setspecific k x).live = s.live := by
  unfold setspecific
  split <;> rfl

@[simp] theorem setspecific_mem : (s.setspecific k x).mem = s.mem := by
  unfold setspecific
  split <;> rfl

@[simp] theorem setspecific_phase : (s.setspecific k x).phase = s.phase := by
  unfold setspecific
  split <;> rfl

@[simp] theorem setspecific_log : (s.setspecific k x).log = s.log := by
  unfold setspecific
  split <;> rfl

@[simp] theorem setspecific_tsd :
    (s.setspecific k x).tsd = Function.update s.tsd k x := by
  unfold setspecific
  split
  · rfl
  · next h =>
    rw [not_not] at h
    rw [← h, Function.update_eq_self]

theorem setspecific_used : (s.setspecific k x).used = true ↔ s.used = true ∨ s.tsd k ≠ x := by
  unfold setspecific
  split
  · next h => simp [h]
  · next h => simp [not_not.mp h]

end Setspecific

/-- The keys in the order the search of `pthread_key_create` visits them. -/
def keysFrom (next : Fin pthreadKeysMax) : List (Fin pthreadKeysMax) :=
  (List.finRange pthreadKeysMax).map fun n => next + n

/-- `pthread_key_create`; `none` is `EAGAIN`. -/
def keyCreate (s : TlsThread ι) (dtor : TlsDtor) :
    Option (Fin pthreadKeysMax × TlsThread ι) :=
  ((keysFrom s.nextKey).find? fun j => s.keys j = none).map fun j =>
    (j, { s with
          keys := Function.update s.keys j (some dtor)
          nextKey := j })

theorem keyCreate_eq_some {s t : TlsThread ι} {dtor : TlsDtor} {k : Fin pthreadKeysMax}
    (h : s.keyCreate dtor = some (k, t)) :
    s.keys k = none ∧
      t = { s with
            keys := Function.update s.keys k (some dtor)
            nextKey := k } := by
  obtain ⟨j, hj, hjt⟩ := Option.map_eq_some_iff.mp h
  obtain ⟨rfl, rfl⟩ := Prod.mk.inj hjt
  have hvacant := List.find?_some hj
  exact ⟨of_decide_eq_true hvacant, rfl⟩

/-- `pthread_key_delete` -/
def keyDelete (s : TlsThread ι) (k : Fin pthreadKeysMax) : TlsThread ι :=
  { s with
    tsd := Function.update s.tsd k 0
    keys := Function.update s.keys k none }

/-- The header in front of `object` counts one round. -/
def countDown (live : List (TlsStorage ι)) (object : ℕ) : List (TlsStorage ι) :=
  live.map fun st => if st.addr = object then { st with rounds := st.rounds - 1 } else st

/-- `tls_release`, in the round `j`; undefined where there is no header in front of the address. -/
def tlsRelease (s : TlsThread ι) (object j : ℕ) : Option (TlsThread ι) :=
  (s.live.find? fun st => st.addr = object).map fun h =>
    if h.rounds ≠ 0 then
      -- a value that is set during a round has musl run another one
      setspecific { s with live := countDown s.live object } h.key object
    else
      { s with
        live := s.live.filter fun st => st.base ≠ h.base
        log := s.log ++ [.freed object j] }

/-- That `aligned_alloc` may answer `base`: it refuses the largest alignments and lengths, and what
it gives is aligned, not null and apart from the storage the thread has. -/
def Allocates (s : TlsThread ι) (align length base : ℕ) : Prop :=
  align < 2 ^ 35 ∧ length ≤ 2 ^ 64 - 1 - align ∧
    align ∣ base ∧ 0 < base ∧ base + length < 2 ^ 64 ∧
      ∀ st ∈ s.live, st.block.Apart ⟨base, length⟩

instance (s : TlsThread ι) (align length base : ℕ) : Decidable (s.Allocates align length base) :=
  inferInstanceAs (Decidable (_ ∧ _))

/-- New storage for the variable `c` in the block at `base`. -/
def storageAt (c : ι) (k : Fin pthreadKeysMax) (base : ℕ) : TlsStorage ι :=
  ⟨c, base + (controls c).lead, base, (controls c).length, k, destructorIterations - 1⟩

/-- What the allocator may answer holds the variable as it should. -/
theorem laid_storageAt {s : TlsThread ι} {c : ι} {base : ℕ} (k : Fin pthreadKeysMax)
    (h : s.Allocates (controls c).alignment (controls c).length base) :
    (storageAt controls c k base).Laid (controls c) where
  aligned := by
    obtain ⟨-, -, hbase, -⟩ := h
    exact Nat.dvd_add ((controls c).align_dvd_alignment.trans hbase)
      ((controls c).align_dvd_alignment.trans EmutlsControl.alignment_dvd_lead)
  header := Nat.add_le_add_left (EmutlsControl.header_le_lead h.1) base
  inside := by
    have hfits := EmutlsControl.lead_add_size_le h.1
    simp only [storageAt]
    omega

/-- The storage is made: header, bytes and value. -/
def make (s : TlsThread ι) (st : TlsStorage ι) : TlsThread ι :=
  setspecific
    { s with
      live := st :: s.live
      mem := fun a =>
        if st.Has (controls st.control) a then (controls st.control).initial (a - st.addr)
        else s.mem a }
    st.key st.addr

/-- The head of the loop of `__pthread_tsd_run_dtors`, before the round `j`. -/
def round (s : TlsThread ι) (j : ℕ) : TlsThread ι :=
  -- the loop's own condition: some value was set since the last round began
  if s.used ∧ j < destructorIterations then
    { s with
      phase := .turn j 0
      used := false }
  else { s with phase := .ended }

/-- The body of the loop for the key `k` in the round `j`. -/
def visit (s : TlsThread ι) (j : ℕ) (k : Fin pthreadKeysMax) : Option (TlsThread ι) :=
  let val := s.tsd k
  -- before its destructor is called the value is cleared
  let cleared : TlsThread ι :=
    { s with
      tsd := Function.update s.tsd k 0
      phase := .turn j (k + 1) }
  if val = 0 then some cleared
  else
    match s.keys k with
    | none | some .nodtor => some cleared
    -- `tls_release` is one step, and in a destructor of the program's anything may happen
    | some .tlsRelease => cleared.tlsRelease val j
    | some .program => some { cleared with phase := .within j (k + 1) }

/-- The thread runs code of the program: it lives, or a destructor does. -/
def Runs (s : TlsThread ι) : Prop :=
  match s.phase with
  | .living | .within _ _ => True
  | .turn _ _ | .ended => False

instance (s : TlsThread ι) : Decidable s.Runs := by
  unfold Runs
  split <;> infer_instance

/-- A key of the program's own. -/
def Own (s : TlsThread ι) (k : Fin pthreadKeysMax) : Prop :=
  s.keys k = some .nodtor ∨ s.keys k = some .program

instance (s : TlsThread ι) (k : Fin pthreadKeysMax) : Decidable (s.Own k) :=
  inferInstanceAs (Decidable (_ ∨ _))

/-- No byte of a header. -/
def OffHeaders (s : TlsThread ι) (a : ℕ) : Prop :=
  ∀ st ∈ s.live, a + tlsHeaderSize < st.addr ∨ st.addr ≤ a

instance (s : TlsThread ι) (a : ℕ) : Decidable (s.OffHeaders a) :=
  inferInstanceAs (Decidable (∀ _ ∈ _, _))

section Step

variable [DecidableEq ι]

/-- The key of a variable, made where it has none; `none` is `abort`. -/
def indexOf (s : TlsThread ι) (c : ι) : Option (Fin pthreadKeysMax × TlsThread ι) :=
  match s.index c with
  | some k => some (k, s)
  | none => (s.keyCreate .tlsRelease).map fun r =>
      (r.1, { r.2 with index := Function.update r.2.index c (some r.1) })

theorem indexOf_eq_some {s t : TlsThread ι} {c : ι} {k : Fin pthreadKeysMax}
    (h : s.indexOf c = some (k, t)) :
    s.index c = some k ∧ t = s ∨
      s.index c = none ∧ s.keys k = none ∧
        t = { s with
              keys := Function.update s.keys k (some .tlsRelease)
              nextKey := k
              index := Function.update s.index c (some k) } := by
  unfold indexOf at h
  split at h
  · next k' hk' =>
    obtain ⟨rfl, rfl⟩ := Prod.mk.inj (Option.some.inj h)
    exact .inl ⟨hk', rfl⟩
  · next hnone =>
    obtain ⟨⟨j, u⟩, hu, hjt⟩ := Option.map_eq_some_iff.mp h
    obtain ⟨rfl, rfl⟩ := Prod.mk.inj hjt
    obtain ⟨hvacant, rfl⟩ := keyCreate_eq_some hu
    exact .inr ⟨hnone, hvacant, rfl⟩

/-- `__emutls_get_address`, where `aligned_alloc`, if it is asked, answers `base`; `none` is
`abort`. -/
def getAddress (s : TlsThread ι) (c : ι) (base : ℕ) : Option (ℕ × TlsThread ι) :=
  (s.indexOf c).bind fun r =>
    if r.2.tsd r.1 ≠ 0 then some (r.2.tsd r.1, r.2)
    -- a first use in this thread, or one after the storage was freed
    else if r.2.Allocates (controls c).alignment (controls c).length base then
      let st := storageAt controls c r.1 base
      some (st.addr, r.2.make controls st)
    else none

theorem getAddress_eq_some {s t : TlsThread ι} {c : ι} {base p : ℕ}
    (h : s.getAddress controls c base = some (p, t)) :
    ∃ k u, s.indexOf c = some (k, u) ∧
      (u.tsd k ≠ 0 ∧ p = u.tsd k ∧ t = u ∨
        u.tsd k = 0 ∧ u.Allocates (controls c).alignment (controls c).length base ∧
          p = (storageAt controls c k base).addr ∧
            t = u.make controls (storageAt controls c k base)) := by
  obtain ⟨⟨k, u⟩, hu, h⟩ := Option.bind_eq_some_iff.mp h
  refine ⟨k, u, hu, ?_⟩
  split_ifs at h with hv ha
  · obtain ⟨rfl, rfl⟩ := Prod.mk.inj (Option.some.inj h)
    exact .inl ⟨hv, rfl, rfl⟩
  · obtain ⟨rfl, rfl⟩ := Prod.mk.inj (Option.some.inj h)
    exact .inr ⟨not_not.mp hv, ha, rfl, rfl⟩

/-- One step. The program sets and deletes only keys it created, and bytes are stored anywhere but
in a header. -/
def step (s : TlsThread ι) : TlsMove ι → Option (TlsThread ι)
  | .create destructor =>
    (s.keyCreate (if destructor then .program else .nodtor)).map Prod.snd
  | .delete k => if s.Own k then some (s.keyDelete k) else none
  -- the table of keys and those of the controls are the process's, so other threads change them
  | .indexed c => (s.indexOf c).map Prod.snd
  | .address c base => if s.Runs then (s.getAddress controls c base).map Prod.snd else none
  | .set k v =>
    if s.Runs ∧ s.Own k then
      some (setspecific { s with log := s.log ++ [.set k v] } k v)
    else none
  | .store a b =>
    if s.OffHeaders a then some { s with mem := Function.update s.mem a b } else none
  | .exit =>
    match s.phase with
    | .living => some (s.round 0)
    | _ => none
  | .turn =>
    match s.phase with
    | .turn j i => if h : i < pthreadKeysMax then s.visit j ⟨i, h⟩ else some (s.round (j + 1))
    | _ => none
  | .leave =>
    match s.phase with
    | .within j i => some { s with phase := .turn j i }
    | _ => none

variable {controls} {s t : TlsThread ι}

theorem indexOf_phase {c : ι} {k : Fin pthreadKeysMax} (h : s.indexOf c = some (k, t)) :
    t.phase = s.phase := by
  rcases indexOf_eq_some h with ⟨-, rfl⟩ | ⟨-, -, rfl⟩ <;> rfl

theorem step_exit : step controls s .exit = some t ↔ s.phase = .living ∧ s.round 0 = t := by
  simp only [step]
  split <;> simp_all

/-- The loop turns to the next key, or to the next round behind the last one. -/
theorem step_turn : step controls s .turn = some t ↔
    ∃ j i, s.phase = .turn j i ∧
      ((∃ h : i < pthreadKeysMax, s.visit j ⟨i, h⟩ = some t) ∨
        pthreadKeysMax ≤ i ∧ s.round (j + 1) = t) := by
  simp only [step]
  split
  · next j i hphase =>
    simp only [hphase, TlsPhase.turn.injEq]
    constructor
    · intro h
      refine ⟨j, i, ⟨rfl, rfl⟩, ?_⟩
      split_ifs at h with hi
      · exact .inl ⟨hi, h⟩
      · exact .inr ⟨not_lt.mp hi, Option.some.inj h⟩
    · rintro ⟨_, _, ⟨rfl, rfl⟩, ⟨hi, h⟩ | ⟨hi, rfl⟩⟩
      · rw [dif_pos hi, h]
      · rw [dif_neg (not_lt.mpr hi)]
  · next hphase =>
    simp only [reduceCtorEq, false_iff]
    rintro ⟨j, i, h, -⟩
    exact hphase j i h

theorem step_leave : step controls s .leave = some t ↔
    ∃ j i, s.phase = .within j i ∧ { s with phase := .turn j i } = t := by
  simp only [step]
  split <;> simp_all

end Step

end TlsThread

end OpenkalMusl
