import OpenkalMusl.Descriptors.Table
import OpenkalMusl.Transition.Run

/-!
# Listing a directory

`do_getdents`: a directory is enumerated through an iterator of the environment, which cannot be
given an entry back. An entry that does not fit in what is left of the caller's buffer is held in
the description, and offered first at the next call. A name of 256 bytes or more is passed over,
and an error of the iterator ends a call without ending the listing.

Over a run of calls nothing is lost and nothing repeated: what has been delivered and what is held
are the entries the iterator has yielded, those of long names apart.

## Main definitions

* `doGetdents`: the call
* `Listings.step`: one call, with what it delivered recorded under its description
* `Listing.content`: the entries a listing has still to deliver
* `Tiles`: records that follow each other without a gap

## Main results

* `getdentsLoop_spec`: the loop delivers the start of the content and keeps the rest
* `listing_delivers`: over every run of calls, the entries yielded are delivered or held
-/

namespace OpenkalMusl

open Transition

/-! ## The call -/

/-- What a node is, as openkal says it. -/
inductive EntryKind where
  | directory | file | link | other (n : ℕ)
  deriving DecidableEq, Repr

def dtUnknown : ℕ := 0
def dtDir : ℕ := 4
def dtReg : ℕ := 8
def dtLnk : ℕ := 10

def EntryKind.dType : EntryKind → ℕ
  | .directory => dtDir
  | .file => dtReg
  | .link => dtLnk
  | .other _ => dtUnknown

/-- An entry of a directory. -/
structure Entry where
  name : Text
  kind : EntryKind
  deriving DecidableEq, Repr

/-- What `kal_fs_list_next` answers while its iterator is not spent: an error that leaves the
iterator where it was, or an entry. -/
inductive Yield where
  | failed (e : KalError)
  | entry (x : Entry)
  deriving DecidableEq, Repr

/-- The part of a description that a listing uses. The iterator is what it has still to answer,
and `none` where it is zero. -/
structure Listing where
  iterOpen : Bool := false
  iter : Option (List Yield) := none
  pending : Option Entry := none
  deriving DecidableEq, Repr

/-- `struct linux_dirent64`. -/
structure Dirent where
  dIno : ℕ
  dOff : ℕ
  dReclen : ℕ
  dType : ℕ
  dName : Text
  deriving DecidableEq, Repr

/-- A record and where it was written in the caller's buffer. -/
structure Placed where
  start : ℕ
  record : Dirent
  deriving DecidableEq, Repr

/-- The size of `struct linux_dirent64`, and where its name begins. -/
def direntSize : ℕ := 24
def direntName : ℕ := 19

/-- The room a record needs: its name and the terminating zero, up to a multiple of eight. -/
def recordSize (len : ℕ) : ℕ := (direntSize + len + 1 + 7) / 8 * 8

/-- The size of the buffers that carry a name. -/
def nameField : ℕ := 256

/-- A name read back from a buffer: up to its terminating zero. -/
def cString (name : Text) : Text := name.takeWhile (· ≠ '\x00')

/-- What one turn of the loop has to go on with. -/
inductive Turn where
  | failed (e : KalError)
  | spent
  | skipped
  | got (x : Entry)

/-- The entry held, or else the iterator's next. -/
def Listing.next (l : Listing) : Listing × Turn :=
  match l.pending with
  | some held => (l, .got ⟨cString held.name, held.kind⟩)
  | none =>
    match l.iter with
    | none => (l, .spent)
    | some [] => ({ l with iter := none }, .spent)
    | some (.failed e :: rest) => ({ l with iter := some rest }, .failed e)
    | some (.entry x :: rest) =>
      ({ l with iter := some rest }, if x.name.length ≥ nameField then .skipped else .got x)

def direntAt (used : ℕ) (x : Entry) : Dirent where
  dIno := 1
  dOff := used + recordSize x.name.length
  dReclen := recordSize x.name.length % 65536
  dType := x.kind.dType
  dName := x.name

/-- The loop of `do_getdents`. A turn that goes on delivers what was held or reads an answer. -/
def getdentsLoop (cap : ℕ) : ℕ → Listing → ℕ → List Placed →
    Listing × Except Errno ℕ × List Placed
  | 0, l, used, out => (l, .ok used, out)
  | fuel + 1, l, used, out =>
    match l.next with
    | (l, .failed e) => (l, if used = 0 then .error (okmErrno e) else .ok used, out)
    | (l, .spent) => (l, .ok used, out)
    | (l, .skipped) => getdentsLoop cap fuel l used out
    | (l, .got x) =>
      if used + recordSize x.name.length > cap then
        (if l.pending.isSome then l else { l with pending := some x },
          if used = 0 then .error .einval else .ok used, out)
      else
        getdentsLoop cap fuel { l with pending := none } (used + recordSize x.name.length)
          (out ++ [⟨used, direntAt used x⟩])

/-- Turns enough: one for the entry held, one for each answer, and one to find the iterator
spent. -/
def Listing.turns (l : Listing) : ℕ := (l.iter.getD []).length + 2

/-- `do_getdents` of a directory's description; `begun` is what `kal_fs_list_begin` answers. -/
def Listing.getdents (l : Listing) (begun : Except KalError (Option (List Yield))) (cap : ℕ) :
    Listing × Except Errno ℕ × List Placed :=
  let opened : Except KalError Listing :=
    if l.iterOpen then .ok l else begun.map fun iter => { l with iter := iter, iterOpen := true }
  match opened with
  | .error e => (l, .error (okmErrno e), [])
  | .ok l =>
    if l.iter = none then (l, .ok 0, [])
    else getdentsLoop cap l.turns l 0 []

/-- `do_getdents`: the listings of the open descriptions, and what the call answers. -/
def doGetdents (w : PortState) (ls : Fin okmMaxDesc → Listing)
    (begun : Except KalError (Option (List Yield))) (fd : Int) (cap : ℕ) :
    (Fin okmMaxDesc → Listing) × Except Errno ℕ × List Placed :=
  match w.okmDescOf fd with
  | none => (ls, .error .ebadf, [])
  | some d =>
    if (w.desc d).kind ≠ .dir then (ls, .error .enotdir, [])
    else
      let r := (ls d).getdents begun cap
      (Function.update ls d r.1, r.2)

/-! ## What a listing has still to deliver -/

/-- The entries among some answers whose names can be recorded. -/
def nameable : List Yield → List Entry
  | [] => []
  | .failed _ :: rest => nameable rest
  | .entry x :: rest => if x.name.length ≥ nameField then nameable rest else x :: nameable rest

theorem nameable_append (as bs : List Yield) :
    nameable (as ++ bs) = nameable as ++ nameable bs := by
  induction as with
  | nil => rfl
  | cons a as ih =>
    cases a with
    | failed e => exact ih
    | entry x =>
      simp only [List.cons_append, nameable, ih]
      split_ifs <;> rfl

theorem mem_nameable {x : Entry} {as : List Yield} (h : x ∈ nameable as) :
    .entry x ∈ as ∧ x.name.length < nameField := by
  induction as with
  | nil => simp [nameable] at h
  | cons a as ih =>
    cases a with
    | failed e => exact (ih h).imp_left (List.mem_cons_of_mem _)
    | entry y =>
      unfold nameable at h
      split_ifs at h with hlen
      · exact (ih h).imp_left (List.mem_cons_of_mem _)
      · rcases List.mem_cons.mp h with rfl | h
        · exact ⟨List.mem_cons_self, by omega⟩
        · exact (ih h).imp_left (List.mem_cons_of_mem _)

/-- The entries a listing has still to deliver: the one held, and those the iterator yields. -/
def Listing.content (l : Listing) : List Entry := l.pending.toList ++ nameable (l.iter.getD [])

/-- A listing that loses nothing where its iterator is spent, and that can read its names back. -/
structure Listing.Sound (l : Listing) : Prop where
  spent : l.iter = none → l.pending = none
  plain : ∀ x ∈ l.content, '\x00' ∉ x.name
  short : ∀ x ∈ l.content, x.name.length < nameField

/-- What a record shows of an entry: its name and its kind. -/
def Entry.shown (x : Entry) : Text × ℕ := (x.name, x.kind.dType)

def Placed.shown (r : Placed) : Text × ℕ := (r.record.dName, r.record.dType)

/-- The records follow each other from `start` to `stop` without a gap: each begins where the one
before it ends, is a multiple of eight long and holds its name. -/
def Tiles : ℕ → List Placed → ℕ → Prop
  | start, [], stop => start = stop
  | start, r :: rs, stop =>
    r.start = start ∧ 8 ∣ r.record.dReclen ∧
      direntName + r.record.dName.length + 1 ≤ r.record.dReclen ∧
      Tiles (start + r.record.dReclen) rs stop

theorem tiles_concat {start stop : ℕ} {rs : List Placed} {r : Placed} (h : Tiles start rs stop)
    (hstart : r.start = stop) (hdvd : 8 ∣ r.record.dReclen)
    (hname : direntName + r.record.dName.length + 1 ≤ r.record.dReclen) :
    Tiles start (rs ++ [r]) (stop + r.record.dReclen) := by
  induction rs generalizing start with
  | nil =>
    obtain rfl : start = stop := h
    exact ⟨hstart, hdvd, hname, rfl⟩
  | cons q rs ih => exact ⟨h.1, h.2.1, h.2.2.1, ih h.2.2.2⟩

theorem cString_eq_self {name : Text} (h : '\x00' ∉ name) : cString name = name := by
  refine List.takeWhile_eq_self_iff.mpr fun c hc => ?_
  have : c ≠ '\x00' := fun he => h (he ▸ hc)
  simpa using this

/-- A record of a name that can be recorded has its size in its length field. -/
theorem dReclen_direntAt {x : Entry} (used : ℕ) (h : x.name.length < nameField) :
    (direntAt used x).dReclen = recordSize x.name.length ∧ 8 ∣ recordSize x.name.length ∧
      direntName + x.name.length + 1 ≤ recordSize x.name.length := by
  have hlen : x.name.length < 256 := h
  have hle : recordSize x.name.length ≤ direntSize + x.name.length + 8 := by
    unfold recordSize
    omega
  refine ⟨Nat.mod_eq_of_lt ?_, Nat.dvd_mul_left _ _, ?_⟩
  · unfold direntSize at hle
    omega
  · unfold recordSize direntSize direntName
    omega

/-! ## One call -/

/-- What a call makes of a listing: what it delivers is the start of the content, in records that
tile what it returns, and the rest of the content is kept. -/
structure Delivers (l : Listing) (before : List Placed) (cap : ℕ)
    (r : Listing × Except Errno ℕ × List Placed) : Prop where
  sound : r.1.Sound
  iterOpen : r.1.iterOpen = l.iterOpen
  suffix : r.1.iter.getD [] <:+ l.iter.getD []
  content : r.2.2.map Placed.shown ++ r.1.content.map Entry.shown =
    before.map Placed.shown ++ l.content.map Entry.shown
  tiles : ∀ n, r.2.1 = .ok n → Tiles 0 r.2.2 n ∧ n ≤ cap
  ended : r.2.1 = .ok 0 → r.1.iter = none
  refused : ∀ e, r.2.1 = .error e → r.2.2 = []

/-- A turn of the loop goes on with the first entry of the content. -/
theorem Listing.Sound.next_cases {l : Listing} (hl : l.Sound) :
    (∃ e rest, l.pending = none ∧ l.iter = some (.failed e :: rest) ∧
      l.next = ({ l with iter := some rest }, .failed e)) ∨
    (l.content = [] ∧ l.next = ({ l with iter := none }, .spent)) ∨
    (∃ x rest, l.pending = none ∧ l.iter = some (.entry x :: rest) ∧ nameField ≤ x.name.length ∧
      l.next = ({ l with iter := some rest }, .skipped)) ∨
    (∃ x rest, l.pending = none ∧ l.iter = some (.entry x :: rest) ∧ x.name.length < nameField ∧
      l.next = ({ l with iter := some rest }, .got x)) ∨
    ∃ x, l.pending = some x ∧ l.next = (l, .got x) := by
  obtain ⟨iterOpen, iter, pending⟩ := l
  cases pending with
  | some x =>
    refine Or.inr (Or.inr (Or.inr (Or.inr ⟨x, rfl, ?_⟩)))
    have hx : '\x00' ∉ x.name := hl.plain x (by simp [Listing.content])
    simp [Listing.next, cString_eq_self hx]
  | none =>
    match iter with
    | none => exact Or.inr (Or.inl ⟨rfl, rfl⟩)
    | some [] => exact Or.inr (Or.inl ⟨rfl, rfl⟩)
    | some (.failed e :: rest) => exact Or.inl ⟨e, rest, rfl, rfl, rfl⟩
    | some (.entry x :: rest) =>
      by_cases hx : nameField ≤ x.name.length
      · exact Or.inr (Or.inr (Or.inl ⟨x, rest, rfl, rfl, hx, by simp [Listing.next, hx]⟩))
      · exact Or.inr (Or.inr (Or.inr (Or.inl ⟨x, rest, rfl, rfl, by omega,
          by simp [Listing.next, hx]⟩)))

/-- What is delivered after a turn is delivered by the call. -/
theorem Delivers.of_turn {l l' : Listing} {out out' : List Placed} {cap : ℕ}
    {r : Listing × Except Errno ℕ × List Placed} (h : Delivers l' out' cap r)
    (hopen : l'.iterOpen = l.iterOpen) (hsuffix : l'.iter.getD [] <:+ l.iter.getD [])
    (hcontent : out'.map Placed.shown ++ l'.content.map Entry.shown =
      out.map Placed.shown ++ l.content.map Entry.shown) : Delivers l out cap r where
  sound := h.sound
  iterOpen := h.iterOpen.trans hopen
  suffix := h.suffix.trans hsuffix
  content := h.content.trans hcontent
  tiles := h.tiles
  ended := h.ended
  refused := h.refused

/-- A call that stops with the content as it is. -/
theorem Delivers.of_stop {l l' : Listing} {out : List Placed} {cap used : ℕ} (e : Errno)
    (hl : l.Sound) (hspent : l'.iter = none → l'.pending = none)
    (hopen : l'.iterOpen = l.iterOpen) (hsuffix : l'.iter.getD [] <:+ l.iter.getD [])
    (hcontent : l'.content = l.content) (htiles : Tiles 0 out used) (hcap : used ≤ cap)
    (hzero : used = 0 → out = []) :
    Delivers l out cap (l', if used = 0 then .error e else .ok used, out) where
  sound := ⟨hspent, by rw [hcontent]; exact hl.plain, by rw [hcontent]; exact hl.short⟩
  iterOpen := hopen
  suffix := hsuffix
  content := by rw [hcontent]
  tiles n hn := by
    split_ifs at hn with h
    cases hn
    exact ⟨htiles, hcap⟩
  ended hn := by
    split_ifs at hn with h
    exact absurd (Except.ok.inj hn) h
  refused e hn := by
    split_ifs at hn with h
    exact hzero h

/-- A record follows those before it, and shows its entry. -/
theorem tiles_direntAt {x : Entry} {used : ℕ} {out : List Placed} (h : x.name.length < nameField)
    (htiles : Tiles 0 out used) :
    Tiles 0 (out ++ [⟨used, direntAt used x⟩]) (used + recordSize x.name.length) := by
  obtain ⟨hlen, hdvd, hname⟩ := dReclen_direntAt used h
  have := tiles_concat (r := ⟨used, direntAt used x⟩) htiles rfl (by rw [hlen]; exact hdvd)
    (by rw [hlen]; exact hname)
  rwa [hlen] at this

theorem recordSize_pos (len : ℕ) : 0 < recordSize len := by
  unfold recordSize direntSize
  omega

/-- **The loop delivers the start of the content and keeps the rest.** -/
theorem getdentsLoop_spec {cap fuel used : ℕ} {l : Listing} {out : List Placed}
    (hfuel : l.pending.toList.length + (l.iter.getD []).length < fuel) (hl : l.Sound)
    (htiles : Tiles 0 out used) (hcap : used ≤ cap) (hzero : used = 0 → out = []) :
    Delivers l out cap (getdentsLoop cap fuel l used out) := by
  -- Induction on the fuel; a turn that goes on reads an answer or delivers what was held.
  induction fuel generalizing l used out with
  | zero => omega
  | succ fuel ih =>
    -- an entry in hand is parked where it does not fit, and else delivered
    have hgot : ∀ (l' : Listing) (x : Entry), l'.iterOpen = l.iterOpen →
        l'.iter.getD [] <:+ l.iter.getD [] → l'.iter ≠ none →
        x :: nameable (l'.iter.getD []) = l.content → (l'.iter.getD []).length < fuel →
        (l'.pending = none ∨ l'.pending = some x) →
        Delivers l out cap
          (if used + recordSize x.name.length > cap then
            (if l'.pending.isSome then l' else { l' with pending := some x },
              if used = 0 then .error .einval else .ok used, out)
          else
            getdentsLoop cap fuel { l' with pending := none } (used + recordSize x.name.length)
              (out ++ [⟨used, direntAt used x⟩])) := by
      intro l' x hopen hsuffix hiter hx hfuel' hp
      by_cases hfit : used + recordSize x.name.length > cap
      · have hpark : (if l'.pending.isSome then l' else { l' with pending := some x }) =
            { l' with pending := some x } := by
          obtain ⟨_, _, pending⟩ := l'
          rcases hp with rfl | rfl <;> rfl
        rw [if_pos hfit, hpark]
        exact Delivers.of_stop _ hl (fun h => absurd h hiter) hopen hsuffix hx htiles hcap hzero
      · rw [if_neg hfit]
        have hshort : x.name.length < nameField := hl.short x (by simp [← hx])
        have hpos := recordSize_pos x.name.length
        have hrest : ({ l' with pending := none } : Listing).Sound := by
          refine ⟨fun h => absurd h hiter, ?_, ?_⟩
          · exact fun y hy => hl.plain y (by rw [← hx]; exact List.mem_cons_of_mem _ hy)
          · exact fun y hy => hl.short y (by rw [← hx]; exact List.mem_cons_of_mem _ hy)
        refine (ih ?_ hrest (tiles_direntAt hshort htiles) (by omega)
          fun h => by omega).of_turn hopen hsuffix ?_
        · simpa using hfuel'
        · rw [← hx]
          simp [Listing.content, Placed.shown, Entry.shown, direntAt]
    rcases hl.next_cases with ⟨e, rest, hp, hi, hn⟩ | ⟨hc, hn⟩ | ⟨x, rest, hp, hi, hx, hn⟩ |
      ⟨x, rest, hp, hi, hx, hn⟩ | ⟨x, hp, hn⟩ <;> simp only [getdentsLoop, hn]
    · -- the iterator fails: what was delivered is answered, or the error
      refine Delivers.of_stop _ hl (by simp) rfl ?_ ?_ htiles hcap hzero
      · simp [hi]
      · simp [Listing.content, hi, nameable]
    · -- the iterator is spent, and nothing is held
      have hp : l.pending = none := by
        have := (List.append_eq_nil_iff.mp hc).1
        simpa using this
      refine ⟨⟨fun _ => hp, ?_, ?_⟩, rfl, List.nil_suffix, ?_, ?_, fun _ => rfl, ?_⟩
      · simp [Listing.content, hp, nameable]
      · simp [Listing.content, hp, nameable]
      · rw [hc]
        simp [Listing.content, hp, nameable]
      · rintro n hn
        cases hn
        exact ⟨htiles, hcap⟩
      · rintro e he
        cases he
    · -- a name too long is passed over
      have hcontent : ({ l with iter := some rest } : Listing).content = l.content := by
        simp [Listing.content, hi, nameable, hx]
      refine (ih ?_ ⟨by simp, ?_, ?_⟩ htiles hcap hzero).of_turn rfl ?_ ?_
      · rw [hp, hi] at hfuel
        simp only [hp, Option.getD_some, List.length_cons, Option.toList_none, List.length_nil]
          at hfuel ⊢
        omega
      · rw [hcontent]
        exact hl.plain
      · rw [hcontent]
        exact hl.short
      · simp [hi]
      · rw [hcontent]
    · refine hgot { l with iter := some rest } x rfl ?_ (by simp) ?_ ?_ (Or.inl hp)
      · simp [hi]
      · simp [Listing.content, hp, hi, nameable, hx]
      · rw [hp, hi] at hfuel
        simp only [Option.getD_some, List.length_cons, Option.toList_none, List.length_nil]
          at hfuel ⊢
        omega
    · refine hgot l x rfl (List.suffix_refl _) ?_ ?_ ?_ (Or.inr hp)
      · intro h
        rw [hl.spent h] at hp
        cases hp
      · simp [Listing.content, hp]
      · rw [hp] at hfuel
        simp only [Option.toList_some, List.length_singleton] at hfuel
        omega

/-- A call on a listing that has been begun. -/
theorem Listing.Sound.delivers {l : Listing} (hl : l.Sound) (cap : ℕ) :
    Delivers l [] cap
      (if l.iter = none then (l, .ok 0, []) else getdentsLoop cap l.turns l 0 []) := by
  split_ifs with hi
  · refine ⟨hl, rfl, List.suffix_refl _, rfl, ?_, fun _ => hi, fun _ h => ?_⟩
    · rintro n hn
      cases hn
      exact ⟨rfl, Nat.zero_le _⟩
    · cases h
  · refine getdentsLoop_spec ?_ hl rfl (Nat.zero_le _) fun _ => rfl
    have : l.pending.toList.length ≤ 1 := by cases l.pending <;> simp
    unfold Listing.turns
    omega

/-! ## Runs of calls -/

/-- A call that was answered through a description. -/
structure Answered where
  cap : ℕ
  result : Except Errno ℕ
  records : List Placed

/-- The listings of the open descriptions. For each is recorded what its iterator was begun with,
and the calls answered through it. -/
structure Listings where
  port : PortState
  listing : Fin okmMaxDesc → Listing
  given : Fin okmMaxDesc → List Yield
  answered : Fin okmMaxDesc → List Answered

/-- A call of `getdents64`, with what beginning an iterator would answer. -/
structure ListCall where
  fd : Int
  cap : ℕ
  begun : Except KalError (Option (List Yield))

namespace Listings

def start (w : PortState) : Listings := ⟨w, fun _ => {}, fun _ => [], fun _ => []⟩

def step (s : Listings) (c : ListCall) : Option Listings :=
  let r := doGetdents s.port s.listing c.begun c.fd c.cap
  match s.port.okmDescOf c.fd with
  | none => some s
  | some d => some { s with
      listing := r.1
      given := if (s.listing d).iterOpen = false ∧ (r.1 d).iterOpen = true then
          Function.update s.given d (c.begun.toOption.join.getD []) else s.given
      answered := Function.update s.answered d (s.answered d ++ [⟨c.cap, r.2.1, r.2.2⟩]) }

end Listings

/-- The names of some answers have no zero byte. -/
def PlainNames (as : List Yield) : Prop := ∀ x, .entry x ∈ as → '\x00' ∉ x.name

/-- Everything delivered, over the calls. -/
def delivered (answers : List Answered) : List Placed := answers.flatMap Answered.records

/-- What holds of a description between calls. -/
structure Kept (given : List Yield) (l : Listing) (answers : List Answered) : Prop where
  sound : l.Sound
  closed : l.iterOpen = false → l.iter = none ∧ given = [] ∧ ∀ a ∈ answers, ∀ n, a.result ≠ .ok n
  suffix : l.iter.getD [] <:+ given
  content : (delivered answers).map Placed.shown ++ l.content.map Entry.shown =
    (nameable given).map Entry.shown
  tiles : ∀ a ∈ answers, ∀ n, a.result = .ok n → Tiles 0 a.records n ∧ n ≤ a.cap
  refused : ∀ a ∈ answers, ∀ e, a.result = .error e → a.records = []
  ended : ∀ a ∈ answers, a.result = .ok 0 → l.content = []

theorem kept_fresh : Kept [] {} [] where
  sound := ⟨fun _ => rfl, by simp [Listing.content, nameable], by simp [Listing.content, nameable]⟩
  closed _ := ⟨rfl, rfl, by simp⟩
  suffix := List.suffix_refl _
  content := rfl
  tiles := by simp
  refused := by simp
  ended := by simp

/-- Beginning the iterator. -/
theorem Kept.begin {l : Listing} {answers : List Answered} {given : List Yield}
    (h : Kept given l answers) (hopen : l.iterOpen = false) (iter : Option (List Yield))
    (hplain : PlainNames (iter.getD [])) :
    Kept (iter.getD []) { l with iter := iter, iterOpen := true } answers := by
  obtain ⟨hiter, rfl, hnot⟩ := h.closed hopen
  have hp := h.sound.spent hiter
  have hnone : delivered answers = [] := by
    have := h.content
    simp only [nameable, List.map_nil, List.append_eq_nil_iff, List.map_eq_nil_iff] at this
    exact this.1
  have hcontent : ({ l with iter := iter, iterOpen := true } : Listing).content =
      nameable (iter.getD []) := by simp [Listing.content, hp]
  refine ⟨⟨fun _ => hp, ?_, ?_⟩, by simp, List.suffix_refl _, ?_, h.tiles, h.refused, ?_⟩
  · rw [hcontent]
    exact fun x hx => hplain x (mem_nameable hx).1
  · rw [hcontent]
    exact fun x hx => (mem_nameable hx).2
  · rw [hcontent, hnone]
    rfl
  · exact fun a ha hz => absurd hz (hnot a ha 0)

/-- What holds of every call and of one more. -/
theorem forall_answered {P : Answered → Prop} {answers : List Answered} {a : Answered}
    (hold : ∀ b ∈ answers, P b) (hnew : P a) : ∀ b ∈ answers ++ [a], P b := by
  intro b hb
  rcases List.mem_append.mp hb with hb | hb
  · exact hold b hb
  · exact List.mem_singleton.mp hb ▸ hnew

/-- A call that delivers is kept with those before it. -/
theorem Kept.deliver {l : Listing} {answers : List Answered} {given : List Yield} {cap : ℕ}
    {r : Listing × Except Errno ℕ × List Placed} (h : Kept given l answers)
    (hopen : l.iterOpen = true) (hr : Delivers l [] cap r) :
    Kept given r.1 (answers ++ [⟨cap, r.2.1, r.2.2⟩]) := by
  have hcontent := hr.content
  rw [List.map_nil, List.nil_append] at hcontent
  refine ⟨hr.sound, ?_, hr.suffix.trans h.suffix, ?_, forall_answered h.tiles hr.tiles,
    forall_answered h.refused hr.refused, forall_answered (fun a ha hz => ?_) fun hz => ?_⟩
  · intro hc
    rw [hr.iterOpen, hopen] at hc
    cases hc
  · rw [← h.content, ← hcontent]
    simp [delivered]
  · -- once everything was delivered there is nothing left to deliver
    rw [h.ended a ha hz, List.map_nil, List.append_eq_nil_iff] at hcontent
    simpa using hcontent.2
  · have hiter := hr.ended hz
    simp [Listing.content, hr.sound.spent hiter, hiter, nameable]

/-- A call that is refused before anything is read. -/
theorem Kept.refuse {l : Listing} {answers : List Answered} {given : List Yield}
    (h : Kept given l answers) (cap : ℕ) (e : Errno) :
    Kept given l (answers ++ [⟨cap, .error e, []⟩]) := by
  refine ⟨h.sound, fun hc => ?_, h.suffix, ?_, forall_answered h.tiles fun n hn => ?_,
    forall_answered h.refused fun _ _ => rfl, forall_answered h.ended fun hz => ?_⟩
  · obtain ⟨hi, hg, hnot⟩ := h.closed hc
    exact ⟨hi, hg, forall_answered hnot fun n hn => by cases hn⟩
  · rw [← h.content]
    simp [delivered]
  · cases hn
  · cases hz

/-- A call keeps what holds of its description. -/
theorem Kept.getdents {l : Listing} {answers : List Answered} {given : List Yield}
    (h : Kept given l answers) (begun : Except KalError (Option (List Yield))) (cap : ℕ)
    (hplain : PlainNames (begun.toOption.join.getD [])) :
    Kept (if l.iterOpen = false ∧ (l.getdents begun cap).1.iterOpen = true then
        begun.toOption.join.getD [] else given)
      (l.getdents begun cap).1
      (answers ++ [⟨cap, (l.getdents begun cap).2.1, (l.getdents begun cap).2.2⟩]) := by
  cases hopen : l.iterOpen with
  | true =>
    have hcall : l.getdents begun cap =
        if l.iter = none then (l, .ok 0, []) else getdentsLoop cap l.turns l 0 [] := by
      simp [Listing.getdents, hopen]
    rw [if_neg (by simp), hcall]
    exact h.deliver hopen (h.sound.delivers cap)
  | false =>
    cases begun with
    | error e =>
      have hcall : l.getdents (.error e) cap = (l, .error (okmErrno e), []) := by
        simp [Listing.getdents, hopen, Except.map]
      rw [hcall, if_neg (by simp [hopen])]
      exact h.refuse cap (okmErrno e)
    | ok iter =>
      have hbegin := h.begin hopen iter hplain
      have hcall : l.getdents (.ok iter) cap =
          if iter = none then ({ l with iter := iter, iterOpen := true }, .ok 0, [])
          else getdentsLoop cap ({ l with iter := iter, iterOpen := true } : Listing).turns
            { l with iter := iter, iterOpen := true } 0 [] := by
        simp [Listing.getdents, hopen, Except.map]
      have hdel := hbegin.sound.delivers cap
      rw [← hcall] at hdel
      rw [if_pos ⟨rfl, hdel.iterOpen⟩]
      exact hbegin.deliver rfl hdel

/-- Every description is kept by every call. -/
theorem Listings.step_kept {s t : Listings} {c : ListCall} (hstep : s.step c = some t)
    (hplain : PlainNames (c.begun.toOption.join.getD []))
    (h : ∀ d, Kept (s.given d) (s.listing d) (s.answered d)) (d : Fin okmMaxDesc) :
    Kept (t.given d) (t.listing d) (t.answered d) := by
  unfold Listings.step at hstep
  cases hfd : s.port.okmDescOf c.fd with
  | none =>
    simp only [hfd] at hstep
    cases hstep
    exact h d
  | some e =>
    simp only [hfd] at hstep
    cases hstep
    by_cases hkind : (s.port.desc e).kind ≠ .dir
    · -- not a directory: nothing but the answer is recorded
      have hcall : doGetdents s.port s.listing c.begun c.fd c.cap =
          (s.listing, .error .enotdir, []) := by simp [doGetdents, hfd, hkind]
      rw [hcall, if_neg (by simp)]
      rcases eq_or_ne d e with rfl | hne
      · simpa using (h d).refuse c.cap .enotdir
      · simpa [hne] using h d
    · have hcall : doGetdents s.port s.listing c.begun c.fd c.cap =
          (Function.update s.listing e ((s.listing e).getdents c.begun c.cap).1,
            ((s.listing e).getdents c.begun c.cap).2) := by simp [doGetdents, hfd, hkind]
      rw [hcall]
      rcases eq_or_ne d e with rfl | hne
      · have := (h d).getdents c.begun c.cap hplain
        simp only [Function.update_self]
        split_ifs at this ⊢ with hopen
        · simpa using this
        · exact this
      · simp only [Function.update_of_ne hne]
        split_ifs <;> simpa [hne] using h d

/-- **A directory listing loses and repeats nothing.** Over every run of calls, with buffers of
any size and errors anywhere, what has been delivered through a description and the entry it holds
are the entries its iterator has yielded, in order, those with long names apart. The records of a
call tile what it returns, a call that is refused delivers nothing, and one that returns nothing
has everything delivered. -/
theorem listing_delivers {w : PortState} {calls : List ListCall} {s : Listings}
    (hplain : ∀ c ∈ calls, PlainNames (c.begun.toOption.join.getD []))
    (hrun : run Listings.step (Listings.start w) calls = some s) (d : Fin okmMaxDesc) :
    (∃ yielded, s.given d = yielded ++ (s.listing d).iter.getD [] ∧
      (delivered (s.answered d)).map Placed.shown ++
          (s.listing d).pending.toList.map Entry.shown = (nameable yielded).map Entry.shown) ∧
    (∀ a ∈ s.answered d, (∀ n, a.result = .ok n → Tiles 0 a.records n ∧ n ≤ a.cap) ∧
      ∀ e, a.result = .error e → a.records = []) ∧
    ∀ a ∈ s.answered d, a.result = .ok 0 →
      (delivered (s.answered d)).map Placed.shown = (nameable (s.given d)).map Entry.shown := by
  have hkept : ∀ (t : Listings), (∀ d, Kept (t.given d) (t.listing d) (t.answered d)) →
      run Listings.step t calls = some s →
      ∀ d, Kept (s.given d) (s.listing d) (s.answered d) := by
    -- along the run, one call at a time
    clear hrun
    induction calls with
    | nil =>
      rintro t ht hrun
      cases hrun
      exact ht
    | cons c calls ih =>
      intro t ht hrun
      obtain ⟨u, hu, hrun⟩ := run_cons.mp hrun
      refine ih (fun c' hc' => hplain c' (List.mem_cons_of_mem _ hc')) u ?_ hrun
      exact Listings.step_kept hu (hplain c List.mem_cons_self) ht
  have h := hkept _ (fun _ => kept_fresh) hrun d
  obtain ⟨yielded, hyielded⟩ := h.suffix
  refine ⟨⟨yielded, hyielded.symm, ?_⟩, fun a ha => ⟨h.tiles a ha, h.refused a ha⟩, ?_⟩
  · have hcontent := h.content
    rw [← hyielded, nameable_append, Listing.content, List.map_append, List.map_append,
      ← List.append_assoc] at hcontent
    exact List.append_cancel_right hcontent
  · intro a ha hz
    have hcontent := h.content
    rwa [h.ended a ha hz, List.map_nil, List.append_nil] at hcontent

/-- A table in which descriptor 3 is a directory. -/
def directoryTable : PortState :=
  ((PortState.okmTableInit 1 .supplied).okmFdBind 1 3 .dir 0 0 9 oDirectory).1

/-- A directory of two entries, whose iterator fails between them, read with a buffer too small
for the first, one that holds one record, and one that holds more. -/
def smallCalls : List ListCall :=
  [16, 32, 64, 64].map fun cap =>
    ⟨3, cap, .ok (some [.entry ⟨['a'], .file⟩, .failed .io, .entry ⟨['b'], .directory⟩])⟩

theorem listing_delivers_smallCalls :
    ∃ s, run Listings.step (Listings.start directoryTable) smallCalls = some s ∧
      (s.answered ⟨3, by decide⟩).map (fun a => a.result.toOption) =
        [none, some 32, some 32, some 0] ∧
      (delivered (s.answered ⟨3, by decide⟩)).map Placed.shown =
        (nameable (s.given ⟨3, by decide⟩)).map Entry.shown := by
  have hrun : (run Listings.step (Listings.start directoryTable) smallCalls).map
      (fun s => (s.answered ⟨3, by decide⟩).map fun a => a.result.toOption) =
      some [none, some 32, some 32, some 0] := by decide +kernel
  obtain ⟨s, hs, hans⟩ := Option.map_eq_some_iff.mp hrun
  have hplain : ∀ c ∈ smallCalls, PlainNames (c.begun.toOption.join.getD []) := by
    intro c hc
    obtain ⟨cap, -, rfl⟩ := List.mem_map.mp hc
    intro x hx
    have hx' : .entry x ∈ [Yield.entry ⟨['a'], .file⟩, .failed .io,
      .entry ⟨['b'], .directory⟩] := hx
    have : x = ⟨['a'], .file⟩ ∨ x = ⟨['b'], .directory⟩ := by simpa using hx'
    rcases this with rfl | rfl <;> decide
  refine ⟨s, hs, hans, ?_⟩
  obtain ⟨a, ha, hz⟩ := List.mem_map.mp (show some 0 ∈ (s.answered ⟨3, by decide⟩).map _ by
    rw [hans]; simp)
  refine (listing_delivers hplain hs ⟨3, by decide⟩).2.2 a ha ?_
  cases hr : a.result with
  | error e => rw [hr] at hz; cases hz
  | ok n => rw [hr] at hz; cases hz; rfl

end OpenkalMusl
