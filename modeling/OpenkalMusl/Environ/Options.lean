import OpenkalMusl.Environ.Edits
import OpenkalMusl.Names.Join
import OpenkalMusl.Transition.Run

/-!
# The allocator's options among the named values

mimalloc asks for each of its options by name, in any case. `_mi_prim_getenv`
(`okm_mimalloc_prim.c`) scans the named values once for any name of mimalloc's own and keeps the
answer with the address of the array, so that a program that sets none is answered without a search.
It scans again where the array stands at another address.

musl's edits leave the array where it is, or put another where one stood before. Replacing and
removing entries can not make the answer wrong; adding one can, where `realloc` or `malloc` answers
the address that was scanned last.

## Main definitions

* `MiStrings`: mimalloc's functions for strings, of which `Documented` says what is relied on
* `OptionState`, `OptionState.primGetenv`: the named values with what was scanned, and the enquiry
* `searched`: what a search of the named values answers
* `OptionState.Fresh`: what was scanned is not out of date

## Main results

* `OptionState.fresh_primGetenv`, `OptionState.primGetenv_eq`: an enquiry keeps what was scanned up
  to date, and is answered as a search of the first ten thousand entries is
* `OptionState.fresh_of_not_longer`: an edit that adds no entry keeps it up to date
* `options_answered_iff`: which enquiries are answered as a search of all entries, and after which
  edits
-/

namespace OpenkalMusl

open Transition

/-! ## mimalloc's strings -/

/-- mimalloc's functions for strings: `_mi_strlen`, `_mi_strnicmp`, and `_mi_strlcpy` with a size,
which answers whether the string fits and leaves what it copied. -/
structure MiStrings where
  strlen : Text → ℕ
  strnicmp : Text → Text → ℕ → Int
  strlcpy : Text → ℕ → Bool × Text

/-- The first `n` characters without regard to case. -/
def foldedStart (n : ℕ) (s : Text) : Text := (s.take n).map lowerChar

/-- The length of a string, and a comparison of at most `n` characters without regard to case. -/
structure MiStrings.Documented (mi : MiStrings) : Prop where
  strlen : ∀ s, mi.strlen s = s.length
  strnicmp : ∀ s t n, mi.strnicmp s t n = 0 ↔ foldedStart n s = foldedStart n t

/-- `"MIMALLOC_"` -/
def ownPrefix : Text := ['M', 'I', 'M', 'A', 'L', 'L', 'O', 'C', '_']

/-- The entries that a pass goes over at most. -/
def envMax : ℕ := 10000

/-- What `_mi_prim_getenv` returns, and what it leaves in the buffer it is given. -/
structure OptionAnswer where
  code : Int
  result : Option Text
  deriving DecidableEq

/-- The set holds no such name. -/
def OptionAnswer.missing : OptionAnswer := ⟨0, none⟩

/-- There is nothing to search yet. -/
def OptionAnswer.notYet : OptionAnswer := ⟨-1, none⟩

namespace MiStrings

variable (mi : MiStrings)

/-- A value copied into a buffer of `size` bytes, whether it fits or not. -/
def copied (value : Text) (size : ℕ) : OptionAnswer :=
  let r := mi.strlcpy value size
  ⟨if r.1 then 1 else -1, some r.2⟩

/-- The pass for any name of mimalloc's own. -/
def scanOwn (entries : List Text) : Bool :=
  (entries.take envMax).any fun entry => decide (mi.strnicmp entry ownPrefix 9 = 0)

/-- The pass for a name of length `len`. -/
def searchLoop (name : Text) (len size : ℕ) : List Text → OptionAnswer
  | [] => .missing
  | s :: entries =>
    if mi.strnicmp name s len = 0 ∧ s[len]? = some '=' then mi.copied (s.drop (len + 1)) size
    else searchLoop name len size entries

end MiStrings

/-! ## The enquiry -/

/-- The named values, with `g_scanned` and `g_has_own`. -/
structure OptionState where
  env : Environ
  scanned : Option ℕ
  hasOwn : Bool
  deriving DecidableEq

/-- What happens: a call that edits the named values, and an enquiry with a buffer of `size`
bytes. -/
inductive OptionMove where
  | edit (c : EnvCall)
  | enquire (name : Option Text) (size : ℕ)

namespace OptionState

variable (mi : MiStrings)

/-- `_mi_prim_getenv` -/
def primGetenv (s : OptionState) (name : Option Text) (size : ℕ) : OptionState × OptionAnswer :=
  match name with
  | none => (s, .notYet)
  | some name =>
    let len := mi.strlen name
    if len = 0 then (s, .notYet)
    else
      match s.env.environ with
      | none => (s, .notYet)
      | some env =>
        let s : OptionState :=
          if some env.addr ≠ s.scanned then
            { s with
              hasOwn := mi.scanOwn env.entries
              scanned := some env.addr }
          else s
        if !s.hasOwn then (s, .missing)
        else (s, mi.searchLoop name len size (env.entries.take envMax))

/-- One step; the allocator answers a call as it may. -/
def step (sealing : Option (Text → Option Text)) (store : ℕ) (s : OptionState) :
    OptionMove → Option OptionState
  | .edit c =>
    if ∀ a ∈ c.array, s.env.Allocates store a then
      some { s with env := (s.env.perform sealing c).1 }
    else none
  | .enquire name size => some (s.primGetenv mi name size).1

/-- As the library starts: nothing was scanned, and the array of the start stands at `store`, or was
not made. -/
def start (store : ℕ) (entries : Option (List Text)) : OptionState where
  env := ⟨entries.map fun entries => ⟨store, entries⟩, none⟩
  scanned := none
  hasOwn := false

end OptionState

/-! ## A search of the named values -/

/-- The entry is one of the name, without regard to case. -/
def NamesEntry (name entry : Text) : Prop :=
  foldedStart name.length name = foldedStart name.length entry ∧ entry[name.length]? = some '='

instance (name entry : Text) : Decidable (NamesEntry name entry) :=
  inferInstanceAs (Decidable (_ ∧ _))

/-- What a search of some entries answers: the value of the first of the name. -/
def searchedIn (mi : MiStrings) (entries : List Text) (name : Text) (size : ℕ) : OptionAnswer :=
  match entries.find? fun entry => NamesEntry name entry with
  | none => .missing
  | some entry => mi.copied (entry.drop (name.length + 1)) size

/-- **What a search of the named values answers**, all of them. Where there is no array the answer
is that there is none yet. -/
def searched (mi : MiStrings) (e : Environ) (name : Text) (size : ℕ) : OptionAnswer :=
  match e.environ with
  | none => .notYet
  | some env => searchedIn mi env.entries name size

/-- A name that begins with `MIMALLOC_`, without regard to case. -/
def IsOption (name : Text) : Prop := foldedStart 9 name = foldedStart 9 ownPrefix

instance (name : Text) : Decidable (IsOption name) := inferInstanceAs (Decidable (_ = _))

/-- An entry that gives an option a value. -/
def IsSetting (entry : Text) : Prop := IsOption entry ∧ '=' ∈ entry

instance (entry : Text) : Decidable (IsSetting entry) := inferInstanceAs (Decidable (_ ∧ _))

/-- The name has an entry among the first ten thousand, or none at all. -/
def InReach (e : Environ) (name : Text) : Prop :=
  (∃ entry ∈ e.entries, NamesEntry name entry) →
    ∃ entry ∈ e.entries.take envMax, NamesEntry name entry

/-! ## Names without regard to case -/

section Names

variable {mi : MiStrings} {name entry : Text} {entries : List Text} {size : ℕ}

theorem foldedStart_take {n k : ℕ} (h : n ≤ k) (s : Text) :
    (foldedStart k s).take n = foldedStart n s := by
  rw [foldedStart, foldedStart, ← List.map_take, List.take_take, min_eq_left h]

theorem IsOption.nine_le (h : IsOption name) : 9 ≤ name.length := by
  have hlen := congrArg List.length h
  rw [foldedStart, List.length_map, List.length_take] at hlen
  have hnine : (foldedStart 9 ownPrefix).length = 9 := by decide
  omega

/-- No separator stands in the prefix. -/
theorem IsOption.nine_le_of_sep (h : IsOption name) {l : ℕ} (hsep : name[l]? = some '=') :
    9 ≤ l := by
  by_contra hlt
  have hmem : '=' ∈ name.take 9 := by
    refine List.mem_of_getElem? (i := l) ?_
    rw [List.getElem?_take_of_lt (by omega), hsep]
  have hfolded := List.mem_map_of_mem (f := lowerChar) hmem
  have hprefix : lowerChar '=' ∈ foldedStart 9 ownPrefix := h ▸ hfolded
  exact absurd hprefix (by decide)

/-- An entry of an option gives it a value. -/
theorem NamesEntry.isSetting (h : NamesEntry name entry) (hname : IsOption name) :
    IsSetting entry := by
  refine ⟨?_, List.mem_of_getElem? h.2⟩
  have hstart := congrArg (List.take 9) h.1
  rw [foldedStart_take hname.nine_le, foldedStart_take hname.nine_le] at hstart
  exact hstart.symm.trans hname

/-- What gives an option a value is an entry of its name. -/
theorem IsSetting.named (h : IsSetting entry) :
    IsOption (nameOf entry) ∧ NamesEntry (nameOf entry) entry := by
  obtain ⟨rest, hsplit⟩ : ∃ rest, nameOf entry ++ '=' :: rest = entry :=
    ⟨_, nameOf_append_valueOf h.2⟩
  generalize nameOf entry = name at hsplit ⊢
  subst hsplit
  have hsep : (name ++ '=' :: rest)[name.length]? = some '=' := by
    rw [List.getElem?_append_right le_rfl, Nat.sub_self]
    rfl
  have hnine : 9 ≤ name.length := h.1.nine_le_of_sep hsep
  have htake : ∀ n ≤ name.length,
      foldedStart n (name ++ '=' :: rest) = foldedStart n name := by
    intro n hn
    rw [foldedStart, foldedStart, List.take_append_of_le_length hn]
  exact ⟨(htake 9 hnine).symm.trans h.1, (htake _ le_rfl).symm, hsep⟩

theorem strlen_ne_zero (hmi : mi.Documented) (h : IsOption name) : mi.strlen name ≠ 0 := by
  have hnine := h.nine_le
  rw [hmi.strlen]
  omega

theorem copied_ne_missing (mi : MiStrings) (value : Text) (size : ℕ) :
    mi.copied value size ≠ .missing := by
  intro h
  have hcode := congrArg OptionAnswer.code h
  simp only [MiStrings.copied, OptionAnswer.missing] at hcode
  split_ifs at hcode
  · omega

/-- The pass finds what a search of the entries it goes over does. -/
theorem searchLoop_eq (hmi : mi.Documented) (name : Text) (size : ℕ) (entries : List Text) :
    mi.searchLoop name name.length size entries = searchedIn mi entries name size := by
  induction entries with
  | nil => rfl
  | cons entry entries ih =>
    have hnames : mi.strnicmp name entry name.length = 0 ∧ entry[name.length]? = some '=' ↔
        NamesEntry name entry := and_congr_left' (hmi.strnicmp _ _ _)
    unfold MiStrings.searchLoop searchedIn
    by_cases h : NamesEntry name entry
    · rw [if_pos (hnames.mpr h), List.find?_cons_of_pos (by simpa using h)]
    · rw [if_neg fun h' => h (hnames.mp h'), List.find?_cons_of_neg (by simpa using h), ih]
      rfl

theorem searchedIn_of_none (h : ∀ entry ∈ entries, ¬ NamesEntry name entry) :
    searchedIn mi entries name size = .missing := by
  unfold searchedIn
  rw [List.find?_eq_none.mpr fun entry hentry => by simpa using h entry hentry]

theorem searchedIn_of_mem (mi : MiStrings) (size : ℕ) (hmem : entry ∈ entries)
    (h : NamesEntry name entry) :
    ∃ value, searchedIn mi entries name size = mi.copied value size := by
  unfold searchedIn
  cases hfind : entries.find? fun entry => NamesEntry name entry with
  | none =>
    have hnot := List.find?_eq_none.mp hfind entry hmem
    exact absurd h (by simpa using hnot)
  | some found => exact ⟨_, rfl⟩

/-- The first entries are enough to search exactly where the name is among them, or nowhere. -/
theorem searchedIn_take_iff (n : ℕ) :
    searchedIn mi (entries.take n) name size = searchedIn mi entries name size ↔
      ((∃ entry ∈ entries, NamesEntry name entry) →
        ∃ entry ∈ entries.take n, NamesEntry name entry) := by
  constructor
  · rintro heq ⟨entry, hmem, hnames⟩
    by_contra hnone
    push Not at hnone
    obtain ⟨value, hvalue⟩ := searchedIn_of_mem mi size hmem hnames
    rw [searchedIn_of_none hnone, hvalue] at heq
    exact copied_ne_missing mi value size heq.symm
  · intro hreach
    unfold searchedIn
    cases hfind : (entries.take n).find? fun entry => NamesEntry name entry with
    | some found =>
      -- what is found first among the first is found first among all
      rw [(List.take_prefix n entries).find?_eq_some hfind]
    | none =>
      have hnone : ∀ entry ∈ entries, ¬ NamesEntry name entry := by
        intro entry hmem hnames
        obtain ⟨entry', hmem', hnames'⟩ := hreach ⟨entry, hmem, hnames⟩
        exact absurd hnames' (by simpa using List.find?_eq_none.mp hfind entry' hmem')
      rw [List.find?_eq_none.mpr fun entry hentry => by simpa using hnone entry hentry]

end Names

/-! ## What was scanned -/

namespace OptionState

variable {mi : MiStrings} {s t : OptionState} {name : Text}

/-- What was scanned is not out of date: where the array that was scanned last is the one that is
there, and no name of mimalloc's own was found, none of its first ten thousand entries gives an
option a value. -/
def Fresh (s : OptionState) : Prop :=
  s.env.addr = s.scanned → s.hasOwn = false → ∀ entry ∈ s.env.entries.take envMax, ¬ IsSetting entry

theorem not_setting_of_scan (hmi : mi.Documented) {entries : List Text}
    (h : mi.scanOwn entries = false) : ∀ entry ∈ entries.take envMax, ¬ IsSetting entry := by
  intro entry hentry hsetting
  have hnone := List.any_eq_false.mp h entry hentry
  exact hnone (decide_eq_true ((hmi.strnicmp _ _ _).mpr hsetting.1))

theorem fresh_start (store : ℕ) (entries : Option (List Text)) : (start store entries).Fresh := by
  intro haddr _ entry hentry
  cases entries with
  | none => simp [start, Environ.entries] at hentry
  | some entries => simp [start, Environ.addr] at haddr

@[simp] theorem primGetenv_env (mi : MiStrings) (s : OptionState) (name : Option Text) (size : ℕ) :
    (s.primGetenv mi name size).1.env = s.env := by
  unfold primGetenv
  cases name with
  | none => rfl
  | some name =>
    dsimp only
    split_ifs
    · rfl
    · cases s.env.environ with
      | none => rfl
      | some env =>
        dsimp only
        split_ifs <;> rfl

/-- **An enquiry** leaves what was scanned up to date. -/
theorem fresh_primGetenv (hmi : mi.Documented) (h : s.Fresh) (name : Option Text) (size : ℕ) :
    (s.primGetenv mi name size).1.Fresh := by
  unfold primGetenv
  cases name with
  | none => exact h
  | some name =>
    dsimp only
    split_ifs
    · exact h
    · cases henv : s.env.environ with
      | none => exact h
      | some env =>
        dsimp only
        have hscanned : ({ s with
            hasOwn := mi.scanOwn env.entries
            scanned := some env.addr } : OptionState).Fresh := by
          intro _ hown
          rw [Environ.entries_eq henv]
          exact not_setting_of_scan hmi hown
        split_ifs
        · exact hscanned
        · exact hscanned
        · exact h
        · exact h

/-- **An enquiry for an option** is answered as a search of the first ten thousand entries is. -/
theorem primGetenv_eq (hmi : mi.Documented) (h : s.Fresh) (hname : IsOption name) (size : ℕ) :
    (s.primGetenv mi (some name) size).2 =
      match s.env.environ with
      | none => .notYet
      | some env => searchedIn mi (env.entries.take envMax) name size := by
  -- where the answer kept is that there is none, a search finds none
  have hmissing : ∀ {entries : List Text}, (∀ entry ∈ entries.take envMax, ¬ IsSetting entry) →
      searchedIn mi (entries.take envMax) name size = .missing := fun hnone =>
    searchedIn_of_none fun entry hentry hnames => hnone entry hentry (hnames.isSetting hname)
  unfold primGetenv
  dsimp only
  rw [if_neg (strlen_ne_zero hmi hname)]
  cases henv : s.env.environ with
  | none => rfl
  | some env =>
    dsimp only
    rw [hmi.strlen]
    by_cases hscan : some env.addr ≠ s.scanned
    · rw [if_pos hscan]
      dsimp only
      cases hown : mi.scanOwn env.entries with
      | true => exact searchLoop_eq hmi name size _
      | false => exact (hmissing (not_setting_of_scan hmi hown)).symm
    · rw [if_neg hscan]
      rw [not_not] at hscan
      cases hown : s.hasOwn with
      | true => exact searchLoop_eq hmi name size _
      | false =>
        have haddr : s.env.addr = s.scanned := (Environ.addr_eq henv).trans hscan
        exact (hmissing (Environ.entries_eq henv ▸ h haddr hown)).symm

/-- An enquiry is answered as a search of all entries is, exactly where the name is in reach. -/
theorem answered_iff (hmi : mi.Documented) (h : s.Fresh) (hname : IsOption name) (size : ℕ) :
    (s.primGetenv mi (some name) size).2 = searched mi s.env name size ↔ InReach s.env name := by
  rw [primGetenv_eq hmi h hname size]
  unfold searched InReach Environ.entries
  cases s.env.environ with
  | none => simp
  | some env => exact searchedIn_take_iff envMax

/-- Where what was scanned is out of date, some enquiry is answered that there is no such name. -/
theorem exists_unanswered (hmi : mi.Documented) (h : ¬ s.Fresh) :
    ∃ name, IsOption name ∧ InReach s.env name ∧
      ∀ size, (s.primGetenv mi (some name) size).2 ≠ searched mi s.env name size := by
  unfold Fresh at h
  push Not at h
  obtain ⟨haddr, hown, entry, hentry, hsetting⟩ := h
  obtain ⟨hname, hnames⟩ := hsetting.named
  refine ⟨nameOf entry, hname, fun _ => ⟨entry, hentry, hnames⟩, fun size heq => ?_⟩
  cases henv : s.env.environ with
  | none => simp [Environ.entries, henv] at hentry
  | some env =>
    have hmem : entry ∈ env.entries :=
      Environ.entries_eq henv ▸ List.mem_of_mem_take hentry
    obtain ⟨value, hvalue⟩ := searchedIn_of_mem mi size hmem hnames
    have hsame : ¬ some env.addr ≠ s.scanned := by
      rw [not_not, ← haddr, Environ.addr_eq henv]
    have hanswer : (s.primGetenv mi (some (nameOf entry)) size).2 = .missing := by
      unfold primGetenv
      dsimp only
      rw [if_neg (strlen_ne_zero hmi hname), henv]
      dsimp only
      rw [if_neg hsame, hown]
      rfl
    have hsearched : searched mi s.env (nameOf entry) size = mi.copied value size := by
      unfold searched
      rw [henv]
      exact hvalue
    rw [hanswer, hsearched] at heq
    exact copied_ne_missing mi value size heq.symm

/-! ## Edits -/

/-- The edit leaves the array at another address than the one scanned last, or a name of mimalloc's
own was found there, or none of the first ten thousand entries it leaves gives an option a value. -/
def Renews (sealing : Option (Text → Option Text)) (s : OptionState) : OptionMove → Prop
  | .edit c =>
    (s.env.perform sealing c).1.addr = s.scanned → s.hasOwn = false →
      ∀ entry ∈ (s.env.perform sealing c).1.entries.take envMax, ¬ IsSetting entry
  | .enquire _ _ => True

instance (sealing : Option (Text → Option Text)) (s : OptionState) :
    ∀ l, Decidable (s.Renews sealing l)
  | .edit _ => inferInstanceAs (Decidable (_ → _ → ∀ _ ∈ _, _))
  | .enquire _ _ => isTrue trivial

variable {sealing : Option (Text → Option Text)} {store : ℕ} {entries : Option (List Text)}

theorem step_edit {c : EnvCall} (h : step mi sealing store s (.edit c) = some t) :
    t = { s with env := (s.env.perform sealing c).1 } := by
  obtain ⟨-, ht⟩ := Option.ite_none_right_eq_some.mp h
  exact (Option.some.inj ht).symm

/-- An edit keeps what was scanned up to date exactly where it meets the condition. -/
theorem fresh_edit_iff {c : EnvCall} (h : step mi sealing store s (.edit c) = some t) :
    t.Fresh ↔ s.Renews sealing (.edit c) := by
  rw [step_edit h]
  rfl

/-- **One step** that meets the condition keeps what was scanned up to date. -/
theorem fresh_step (hmi : mi.Documented) (h : s.Fresh) {l : OptionMove}
    (hs : step mi sealing store s l = some t) (hrenews : s.Renews sealing l) : t.Fresh := by
  cases l with
  | edit c => exact (fresh_edit_iff hs).mpr hrenews
  | enquire name size =>
    obtain rfl := Option.some.inj hs
    exact fresh_primGetenv hmi h name size

/-- **A run** whose edits meet the condition keeps what was scanned up to date. -/
theorem fresh_of_reachable (hmi : mi.Documented)
    (h : Reachable (restrict (step mi sealing store) (Renews sealing)) (start store entries) s) :
    s.Fresh :=
  h.invariant (fresh_start store entries) fun _ _ _ hu hv =>
    have hstep := restrict_eq_some.mp hv
    fresh_step hmi hu hstep.2 hstep.1

/-- An entry that replaces another of its name gives an option a value only where that did. -/
theorem isSetting_of_replaced {entry old : Text} {l : ℕ}
    (hname : entry.take (l + 1) = old.take (l + 1)) (hsep : entry[l]? = some '=')
    (h : IsSetting entry) : IsSetting old := by
  have hsep' : '=' ∈ entry.take (l + 1) :=
    List.mem_of_getElem? ((List.getElem?_take_of_lt (Nat.lt_succ_self l)).trans hsep)
  have hold : '=' ∈ old := List.mem_of_mem_take (hname ▸ hsep')
  refine ⟨?_, hold⟩
  -- the separator stands behind the prefix, which is the same in both
  have hnine : 9 ≤ l + 1 := (h.1.nine_le_of_sep hsep).trans (Nat.le_succ l)
  have hstart := congrArg (List.take 9) hname
  rw [List.take_take, List.take_take, min_eq_left hnine] at hstart
  show foldedStart 9 old = _
  rw [foldedStart, ← hstart]
  exact h.1

/-- **An edit that adds no entry** keeps what was scanned up to date, in place or not: only an entry
more can give an option a value that none had. -/
theorem fresh_of_not_longer (h : s.Fresh) (hroom : s.env.entries.length ≤ envMax) {c : EnvCall}
    (hlen : (s.env.perform sealing c).1.entries.length ≤ s.env.entries.length) :
    s.Renews sealing (.edit c) := by
  have hall : s.env.addr = s.scanned → s.hasOwn = false →
      ∀ entry ∈ s.env.entries, ¬ IsSetting entry := by
    have hfresh := h
    unfold Fresh at hfresh
    rwa [List.take_of_length_le hroom] at hfresh
  have hedited := Environ.edited_perform (e := s.env) sealing c
  intro haddr hown
  rw [List.take_of_length_le (hlen.trans hroom)]
  generalize (s.env.perform sealing c).1 = e at hedited hlen haddr
  cases hedited with
  | kept => exact hall haddr hown
  | @replaced env before after old entry l henv hentries hname hsep =>
    -- the array is where it was, and its entries give the options that they gave
    have haddr' : s.env.addr = s.scanned := (Environ.addr_eq henv).trans haddr
    have hold : ∀ x ∈ before ++ old :: after, ¬ IsSetting x := by
      have hnone := hall haddr' hown
      rwa [Environ.entries_eq henv, hentries] at hnone
    intro x hx
    rcases List.mem_append.mp (show x ∈ before ++ entry :: after from hx) with hx | hx
    · exact hold x (List.mem_append_left _ hx)
    · rcases List.mem_cons.mp hx with rfl | hx
      · exact fun hset => hold old (by simp) (isSetting_of_replaced hname hsep hset)
      · exact hold x (List.mem_append_right _ (List.mem_cons_of_mem _ hx))
  | @added entry a ha =>
    have hmore : (s.env.entries ++ [entry]).length ≤ s.env.entries.length := hlen
    rw [List.length_append, List.length_singleton] at hmore
    omega
  | @removed env henv p =>
    have haddr' : s.env.addr = s.scanned := (Environ.addr_eq henv).trans haddr
    have hold : ∀ x ∈ env.entries, ¬ IsSetting x := by
      have hnone := hall haddr' hown
      rwa [Environ.entries_eq henv] at hnone
    exact fun x hx => hold x (List.mem_filter.mp (show x ∈ env.entries.filter p from hx)).1
  | cleared =>
    intro x hx
    simp [Environ.entries] at hx

end OptionState

open OptionState

/-- **Which enquiries are answered as a search is.** Along every run whose edits meet the condition
an enquiry for an option is answered as a search of all named values at that moment, exactly where
the name has its first entry among the first ten thousand or none at all; and an edit that does not
meet the condition leaves some enquiry that is not. -/
theorem options_answered_iff {mi : MiStrings} (hmi : mi.Documented)
    (sealing : Option (Text → Option Text)) (store : ℕ) (entries : Option (List Text))
    {s : OptionState}
    (h : Reachable (restrict (step mi sealing store) (Renews sealing)) (start store entries) s) :
    (∀ name, IsOption name → ∀ size,
      (s.primGetenv mi (some name) size).2 = searched mi s.env name size ↔ InReach s.env name) ∧
    ∀ c t, step mi sealing store s (.edit c) = some t →
      ((∀ name, IsOption name → InReach t.env name → ∀ size,
        (t.primGetenv mi (some name) size).2 = searched mi t.env name size) ↔
          s.Renews sealing (.edit c)) := by
  have hfresh := fresh_of_reachable hmi h
  refine ⟨fun name hname size => answered_iff hmi hfresh hname size, fun c t ht => ?_⟩
  rw [← fresh_edit_iff ht]
  constructor
  · intro hanswered
    by_contra hstale
    obtain ⟨name, hname, hreach, hwrong⟩ := exists_unanswered hmi hstale
    exact hwrong 0 (hanswered name hname hreach 0)
  · intro hkept name hname hreach size
    exact (answered_iff hmi hkept hname size).mpr hreach

/-- Functions for strings that do what is relied on. -/
def asciiStrings : MiStrings where
  strlen s := s.length
  strnicmp s t n := if foldedStart n s = foldedStart n t then 0 else 1
  strlcpy value size := (decide (value.length < size), value.take (size - 1))

theorem documented_asciiStrings : asciiStrings.Documented where
  strlen _ := rfl
  strnicmp s t n := by
    unfold asciiStrings
    by_cases h : foldedStart n s = foldedStart n t <;> simp [h]

/-- `mimalloc_verbose` -/
def verbose : Text := ownPrefix.map lowerChar ++ ['v', 'e', 'r', 'b', 'o', 's', 'e']

/-- A value is set, the option is asked for, and then it is set, in an array at `array`. -/
def setsOption (array : ℕ) : List OptionMove :=
  [.edit (.setenv (some ['A']) ['1'] true true (some 8192)), .enquire (some verbose) 64,
    .edit (.setenv (some (ownPrefix ++ ['V', 'E', 'R', 'B', 'O', 'S', 'E'])) ['1'] true true
      (some array))]

/-- The array moves, and the option is answered. -/
theorem options_answered_iff_moved :
    ∃ s, run (restrict (step asciiStrings none 4096) (Renews none))
        (start 4096 (some [['H', '=', '/']])) (setsOption 16384) = some s ∧
      (s.primGetenv asciiStrings (some verbose) 64).2 = searched asciiStrings s.env verbose 64 := by
  have hsome : (run (restrict (step asciiStrings none 4096) (Renews none))
      (start 4096 (some [['H', '=', '/']])) (setsOption 16384)).isSome := by
    decide +kernel
  obtain ⟨s, hs⟩ := Option.isSome_iff_exists.mp hsome
  have hentries : s.env.entries.length = 3 :=
    observe hs (fun s => s.env.entries.length) (by decide +kernel)
  refine ⟨s, hs, ((options_answered_iff documented_asciiStrings none 4096 _ ⟨_, hs⟩).1 verbose
    (by decide +kernel) 64).mpr fun hnamed => ?_⟩
  rwa [List.take_of_length_le (by rw [hentries]; decide)]

/-- The array is reallocated where it stands, and the option that was set is answered as missing. -/
theorem option_missed :
    ¬ ∀ mi : MiStrings, mi.Documented → ∀ sealing store entries s,
      Reachable (step mi sealing store) (start store entries) s →
        ∀ name, IsOption name → ∀ size,
          (s.primGetenv mi (some name) size).2 = searched mi s.env name size := by
  intro hall
  have hsome : (run (step asciiStrings none 4096) (start 4096 (some [['H', '=', '/']]))
      (setsOption 8192)).isSome := by
    decide +kernel
  obtain ⟨s, hs⟩ := Option.isSome_iff_exists.mp hsome
  have hequal := hall asciiStrings documented_asciiStrings none 4096 _ s ⟨_, hs⟩ verbose
    (by decide +kernel) 64
  have hanswer : (s.primGetenv asciiStrings (some verbose) 64).2 = ⟨0, none⟩ :=
    observe hs (fun s => (s.primGetenv asciiStrings (some verbose) 64).2) (by decide +kernel)
  have hsearched : searched asciiStrings s.env verbose 64 = ⟨1, some ['1']⟩ :=
    observe hs (fun s => searched asciiStrings s.env verbose 64) (by decide +kernel)
  rw [hanswer, hsearched] at hequal
  cases hequal

end OpenkalMusl
