import OpenkalMusl.Input.Answers

/-!
# The sets that `select` leaves

`select` asks `poll` about one entry for each number that is in the set of readers or of writers,
and writes both sets anew from what was reported of the entry. A number that is not open is reported
as such without having been asked about, and is written into both sets, also into the one it was not
in.

## Main definitions

* `FdSets`: the sets that are given, and the sets that are left
* `PortState.selectSets`: what `select` leaves of them
* `OnlyAsked`: what a call promises of its sets

## Main results

* `PortState.entry_reported`: what is reported of an entry that is open was asked about
* `PortState.onlyAsked_iff`: when the sets that are left are parts of those that were given
-/

namespace OpenkalMusl

/-- The sets of a `select`; one that is not given is `none`. -/
structure FdSets where
  rd : Option (ℕ → Bool)
  wr : Option (ℕ → Bool)
  ex : Option (ℕ → Bool)

/-- The numbers of which one of the conditions is reported. -/
def setFrom (mask : ℕ) (es : List PollFd) (fd : ℕ) : Bool :=
  es.any fun e => decide (e.fd = fd) && hasFlag e.revents mask

/-- The conditions that put a number into the set of readers. -/
def readMask : ℕ := pollIn ||| pollHup ||| pollErr ||| pollNval

/-- The conditions that put a number into the set of writers. -/
def writeMask : ℕ := pollOut ||| pollErr ||| pollNval

/-- What `select` returns, and the sets as it leaves them. -/
structure Selected where
  result : Option (Except Errno ℕ)
  sets : FdSets

namespace PortState

/-- `SYS_select`, with its three sets: they are written anew where it does not fail. -/
def selectSets (w : PortState) (nfds : Int) (sets : FdSets) (timeoutMs : Int)
    (rounds : List (ℕ → IoEnv)) : Selected :=
  let p := w.okmSelect nfds sets.rd sets.wr timeoutMs rounds
  match p.result with
  | some (.ok n) =>
    ⟨some (.ok n), sets.rd.map fun _ => setFrom readMask p.entries,
      sets.wr.map fun _ => setFrom writeMask p.entries, sets.ex.map fun _ _ => false⟩
  | result => ⟨result, sets⟩

end PortState

/-- How many numbers are in a set. -/
def members (set : Option (ℕ → Bool)) : ℕ :=
  (List.range fdSetsize).countP fun fd => set.any (· fd)

/-- The members of a set are members of another. -/
def Within (set set' : Option (ℕ → Bool)) : Prop := ∀ fd, set.any (· fd) → set'.any (· fd)

/-- What a call promises of its sets: each that is left is a part of the one that was given, none is
exceptional, and their members are counted; and a call that fails leaves them as they were. -/
structure OnlyAsked (given : FdSets) (s : Selected) : Prop where
  read : ∀ n, s.result = some (.ok n) → Within s.sets.rd given.rd
  write : ∀ n, s.result = some (.ok n) → Within s.sets.wr given.wr
  except : ∀ n, s.result = some (.ok n) → ∀ fd, s.sets.ex.any (· fd) = false
  count : ∀ n, s.result = some (.ok n) → n = members s.sets.rd + members s.sets.wr
  failed : ∀ e, s.result = some (.error e) → s.sets = given

/-! ## The entries that are asked -/

section Entries

variable {nfds : Int} {rd wr : Option (ℕ → Bool)} {es : List PollFd}

/-- What is asked about a number. -/
def eventsOf (rd wr : Option (ℕ → Bool)) (fd : ℕ) : ℕ :=
  (if rd.any (· fd) then pollIn else 0) ||| if wr.any (· fd) then pollOut else 0

theorem hasFlag_eventsOf_in (fd : ℕ) : hasFlag (eventsOf rd wr fd) pollIn = rd.any (· fd) := by
  rw [eventsOf]
  cases rd.any (· fd) <;> cases wr.any (· fd) <;> rfl

theorem hasFlag_eventsOf_out (fd : ℕ) : hasFlag (eventsOf rd wr fd) pollOut = wr.any (· fd) := by
  rw [eventsOf]
  cases rd.any (· fd) <;> cases wr.any (· fd) <;> rfl

theorem eventsOf_eq_zero_iff (fd : ℕ) :
    eventsOf rd wr fd = 0 ↔ rd.any (· fd) = false ∧ wr.any (· fd) = false := by
  rw [eventsOf]
  cases rd.any (· fd) <;> cases wr.any (· fd) <;> decide

/-- The entries are the numbers that something is asked about, in order. -/
theorem selectSet_eq (h : PortState.selectSet nfds rd wr = .ok es) :
    0 ≤ nfds ∧ nfds ≤ fdSetsize ∧ es.length ≤ okmSelectMax ∧
      es = ((List.range nfds.toNat).filter fun fd => eventsOf rd wr fd ≠ 0).map fun fd =>
        { fd := fd, events := eventsOf rd wr fd } := by
  unfold PortState.selectSet at h
  split_ifs at h with hrange
  dsimp only at h
  split_ifs at h with hmax
  rw [Except.ok.injEq] at h
  subst h
  refine ⟨by omega, by omega, Nat.not_lt.mp hmax, ?_⟩
  rw [← List.filterMap_eq_map, ← List.filterMap_eq_filter, List.filterMap_filterMap]
  apply List.filterMap_congr
  intro fd _
  change (if eventsOf rd wr fd = 0 then none
    else some ({ fd := fd, events := eventsOf rd wr fd } : PollFd)) = _
  by_cases hzero : eventsOf rd wr fd = 0
  · simp [Option.guard, hzero]
  · simp [Option.guard, hzero]

theorem mem_selectSet (h : PortState.selectSet nfds rd wr = .ok es) (e : PollFd) :
    e ∈ es ↔ ∃ fd : ℕ, (fd : Int) < nfds ∧ eventsOf rd wr fd ≠ 0 ∧
      e = { fd := fd, events := eventsOf rd wr fd } := by
  obtain ⟨hpos, -, -, heq⟩ := selectSet_eq h
  rw [heq, List.mem_map]
  constructor
  · rintro ⟨fd, hfd, rfl⟩
    rw [List.mem_filter, List.mem_range, decide_eq_true_eq] at hfd
    exact ⟨fd, by omega, hfd.2, rfl⟩
  · rintro ⟨fd, hlt, hne, rfl⟩
    refine ⟨fd, ?_, rfl⟩
    rw [List.mem_filter, List.mem_range, decide_eq_true_eq]
    exact ⟨by omega, hne⟩

/-- No two entries are about one number. -/
theorem nodup_selectSet (h : PortState.selectSet nfds rd wr = .ok es) :
    (es.map PollFd.fd).Nodup := by
  obtain ⟨-, -, -, heq⟩ := selectSet_eq h
  rw [heq, List.map_map]
  apply List.Nodup.map
  · intro a b hab
    exact Int.ofNat_inj.mp hab
  · exact List.nodup_range.filter _

end Entries

/-! ## What is reported of them -/

section Reports

variable {w : PortState} {es fs : List PollFd}

/-- **What is reported of an entry was asked about**, or the number is not open. -/
theorem entry_reported {e f : PollFd} (h : Replied w e f) :
    (hasFlag f.revents readMask → hasFlag e.events pollIn ∨ w.okmDescOf e.fd = none) ∧
      (hasFlag f.revents writeMask → hasFlag e.events pollOut ∨ w.okmDescOf e.fd = none) := by
  obtain ⟨revents, rfl, hreports⟩ := h
  cases hreports with
  | unnamed _ =>
    have hzero : ∀ mask, ¬hasFlag 0 mask := by simp [hasFlag]
    exact ⟨fun h => absurd h (hzero _), fun h => absurd h (hzero _)⟩
  | invalid _ hnone => exact ⟨fun _ => Or.inr hnone, fun _ => Or.inr hnone⟩
  | opened _ input output hup hinput houtput hhup =>
    -- with the bit of the mask there is an event that was asked about
    constructor
    · intro hread
      left
      apply hinput
      by_contra hnot
      rw [Bool.not_eq_true] at hnot
      subst hnot
      dsimp only at hread
      revert hread
      cases output <;> cases hup <;> decide
    · intro hwrite
      left
      apply houtput
      by_contra hnot
      rw [Bool.not_eq_true] at hnot
      subst hnot
      dsimp only at hwrite
      revert hwrite
      cases input <;> cases hup <;> decide

/-- A number that is not open is reported in both sets. -/
theorem entry_invalid {e f : PollFd} (h : Replied w e f) (hfd : 0 ≤ e.fd)
    (hnone : w.okmDescOf e.fd = none) :
    hasFlag f.revents readMask = true ∧ hasFlag f.revents writeMask = true := by
  obtain ⟨revents, rfl, hreports⟩ := h
  cases hreports with
  | unnamed hneg => exact absurd hfd (Int.not_le.mpr hneg)
  | invalid _ _ =>
    have hboth : hasFlag pollNval readMask = true ∧ hasFlag pollNval writeMask = true := by decide
    exact hboth
  | opened hopen =>
    rw [hnone] at hopen
    cases hopen

theorem fd_answered (h : List.Forall₂ (Replied w) es fs) : fs.map PollFd.fd = es.map PollFd.fd := by
  induction h with
  | nil => rfl
  | cons hf _ ih =>
    obtain ⟨_, rfl, -⟩ := hf
    rw [List.map_cons, List.map_cons, ih]

theorem mem_answered (h : List.Forall₂ (Replied w) es fs) {f : PollFd} (hf : f ∈ fs) :
    ∃ e ∈ es, Replied w e f := by
  induction h with
  | nil => cases hf
  | cons hone _ ih =>
    rcases List.mem_cons.mp hf with rfl | hf
    · exact ⟨_, List.mem_cons_self, hone⟩
    · obtain ⟨e, he, h⟩ := ih hf
      exact ⟨e, List.mem_cons_of_mem _ he, h⟩

theorem answered_mem (h : List.Forall₂ (Replied w) es fs) {e : PollFd} (he : e ∈ es) :
    ∃ f ∈ fs, Replied w e f := by
  induction h with
  | nil => cases he
  | cons hone _ ih =>
    rcases List.mem_cons.mp he with rfl | he
    · exact ⟨_, List.mem_cons_self, hone⟩
    · obtain ⟨f, hf, h⟩ := ih he
      exact ⟨f, List.mem_cons_of_mem _ hf, h⟩

theorem setFrom_iff (mask : ℕ) (fs : List PollFd) (fd : ℕ) :
    setFrom mask fs fd ↔ ∃ f ∈ fs, f.fd = fd ∧ hasFlag f.revents mask := by
  simp [setFrom, List.any_eq_true]

/-- **The members of a set that is left are the bits that were set.** -/
theorem countP_setFrom {n mask : ℕ} (hnodup : (fs.map PollFd.fd).Nodup)
    (hrange : ∀ f ∈ fs, 0 ≤ f.fd ∧ f.fd < n) :
    (List.range n).countP (setFrom mask fs) = fs.countP fun f => hasFlag f.revents mask := by
  have hperm : ((List.range n).filter (setFrom mask fs)).map Int.ofNat |>.Perm
      ((fs.filter fun f => hasFlag f.revents mask).map PollFd.fd) := by
    apply (List.perm_ext_iff_of_nodup ?_ ?_).mpr
    · intro i
      simp only [List.mem_map, List.mem_filter, List.mem_range, setFrom_iff]
      constructor
      · rintro ⟨fd, ⟨-, f, hf, hfd, hflag⟩, rfl⟩
        exact ⟨f, ⟨hf, hflag⟩, hfd⟩
      · rintro ⟨f, ⟨hf, hflag⟩, rfl⟩
        obtain ⟨hpos, hlt⟩ := hrange f hf
        refine ⟨f.fd.toNat, ⟨by omega, f, hf, ?_, hflag⟩, ?_⟩
        · exact (Int.toNat_of_nonneg hpos).symm
        · exact Int.toNat_of_nonneg hpos
    · exact (List.nodup_range.filter _).map Int.ofNat_injective
    · exact hnodup.sublist (List.filter_sublist.map _)
  have hlength := hperm.length_eq
  rw [List.length_map, List.length_map] at hlength
  rw [List.countP_eq_length_filter, List.countP_eq_length_filter, hlength]

end Reports

/-! ## What a call leaves -/

/-- The call is refused before anything is asked: its range is none, or it names too many. -/
def Refused (nfds : Int) (sets : FdSets) : Prop :=
  nfds < 0 ∨ (fdSetsize : Int) < nfds ∨
    okmSelectMax < (List.range nfds.toNat).countP fun fd =>
      sets.rd.any (· fd) || sets.wr.any (· fd)

/-- Every number in the range that is not open is in both sets or in neither. -/
def ClosedInBoth (w : PortState) (nfds : Int) (sets : FdSets) : Prop :=
  ∀ fd : ℕ, (fd : Int) < nfds → w.okmDescOf fd = none → sets.rd.any (· fd) = sets.wr.any (· fd)

theorem refused_iff {nfds : Int} {sets : FdSets} :
    Refused nfds sets ↔ ∃ e, PortState.selectSet nfds sets.rd sets.wr = .error e := by
  -- the entries are as many as there are numbers in a set
  have hlength : ((List.range nfds.toNat).filterMap fun fd =>
      if eventsOf sets.rd sets.wr fd = 0 then none
      else some ({ fd := fd, events := eventsOf sets.rd sets.wr fd } : PollFd)).length =
      (List.range nfds.toNat).countP fun fd => sets.rd.any (· fd) || sets.wr.any (· fd) := by
    rw [List.length_filterMap_eq_countP]
    apply List.countP_congr
    intro fd _
    by_cases hzero : eventsOf sets.rd sets.wr fd = 0
    · obtain ⟨hrd, hwr⟩ := (eventsOf_eq_zero_iff fd).mp hzero
      simp [hzero, hrd, hwr]
    · have hne := mt (eventsOf_eq_zero_iff fd).mpr hzero
      simp only [if_neg hzero, Option.isSome_some, true_iff, Bool.or_eq_true]
      by_contra hnot
      rw [not_or, Bool.not_eq_true, Bool.not_eq_true] at hnot
      exact hne hnot
  unfold PortState.selectSet
  change _ ↔ ∃ e, (if nfds < 0 ∨ (fdSetsize : Int) < nfds then Except.error Errno.einval
    else if okmSelectMax < ((List.range nfds.toNat).filterMap fun fd =>
        if eventsOf sets.rd sets.wr fd = 0 then none
        else some ({ fd := fd, events := eventsOf sets.rd sets.wr fd } : PollFd)).length then
      Except.error Errno.einval
    else _) = Except.error e
  rw [hlength, Refused, ← or_assoc]
  split_ifs with hrange hmax
  · exact iff_of_true (Or.inl hrange) ⟨_, rfl⟩
  · exact iff_of_true (Or.inr hmax) ⟨_, rfl⟩
  · exact iff_of_false (not_or.mpr ⟨hrange, hmax⟩) (fun ⟨e, he⟩ => by cases he)

namespace PortState

variable {w : PortState} {nfds : Int} {sets : FdSets} {timeoutMs : Int}

/-- What `select` does with what `poll` returned. -/
theorem selectSets_eq {es : List PollFd} (h : selectSet nfds sets.rd sets.wr = .ok es)
    (rounds : List (ℕ → IoEnv)) :
    w.selectSets nfds sets timeoutMs rounds =
      match (w.okmPoll (some es) timeoutMs rounds).result with
      | some (.ok _) =>
        let entries := (w.okmPoll (some es) timeoutMs rounds).entries
        ⟨some (.ok (selectCount sets.rd sets.wr entries)),
          sets.rd.map fun _ => setFrom readMask entries,
          sets.wr.map fun _ => setFrom writeMask entries, sets.ex.map fun _ _ => false⟩
      | result => ⟨result, sets⟩ := by
  unfold selectSets okmSelect
  simp only [h]
  cases hresult : (w.okmPoll (some es) timeoutMs rounds).result with
  | none => simp only [hresult]
  | some result =>
    cases result with
    | ok n => rfl
    | error e => simp only [hresult]

theorem okmPoll_tells {es : List PollFd} (h : selectSet nfds sets.rd sets.wr = .ok es)
    (rounds : List (ℕ → IoEnv)) : Tells w es (w.okmPoll (some es) timeoutMs rounds) := by
  obtain ⟨-, -, hmax, -⟩ := selectSet_eq h
  have hlen : ¬okmMaxFd < es.length := by
    have hle : okmSelectMax ≤ okmMaxFd := by decide
    omega
  unfold okmPoll
  dsimp only
  rw [if_neg hlen]
  exact pollRounds_exact rfl rounds

/-- A number that is not open ends the wait in the first round. -/
theorem okmPoll_closed {es : List PollFd} (h : selectSet nfds sets.rd sets.wr = .ok es) {e : PollFd}
    (he : e ∈ es) (hfd : 0 ≤ e.fd) (hnone : w.okmDescOf e.fd = none) (env : ℕ → IoEnv)
    (rounds : List (ℕ → IoEnv)) :
    ∃ n, (w.okmPoll (some es) timeoutMs (env :: rounds)).result = some (.ok n) := by
  obtain ⟨-, -, hmax, -⟩ := selectSet_eq h
  have hlen : ¬okmMaxFd < es.length := by
    have hle : okmSelectMax ≤ okmMaxFd := by decide
    omega
  unfold okmPoll
  dsimp only
  rw [if_neg hlen]
  unfold pollRounds
  dsimp only
  generalize (if (es.length == 1 && es.all fun e => decide (0 ≤ e.fd)) = true then _ else okmNowNs)
    = ns
  obtain ⟨fs, hfs, -, hcount⟩ := pollRound_answers (w := w) (r := { port := w }) rfl ns env 0 es
  obtain ⟨f, hf, hanswer⟩ := answered_mem hfs he
  have hreports := (entry_invalid hanswer hfd hnone).1
  -- a number that is not open counts as ready
  have hready : (pollRound ns env { port := w } 0 es).ready ≠ 0 := by
    rw [hcount, Nat.zero_add]
    apply Nat.ne_of_gt
    apply List.countP_pos_iff.mpr
    refine ⟨f, hf, ?_⟩
    rw [bne_iff_ne]
    intro hzero
    rw [hzero] at hreports
    simp [hasFlag] at hreports
  rw [if_pos hready]
  exact ⟨_, rfl⟩

/-- What is in a set that is left was in the set that was given, where it is so of every number that
is not open. -/
theorem within_setFrom {es fs : List PollFd} {mask flag : ℕ} {set : Option (ℕ → Bool)}
    (hes : selectSet nfds sets.rd sets.wr = .ok es) (hfs : List.Forall₂ (Replied w) es fs)
    (hreported : ∀ e f, Replied w e f → hasFlag f.revents mask →
      hasFlag e.events flag ∨ w.okmDescOf e.fd = none)
    (hset : ∀ fd, hasFlag (eventsOf sets.rd sets.wr fd) flag = set.any (· fd))
    (hclosed : ∀ fd : ℕ, (fd : Int) < nfds → w.okmDescOf fd = none →
      eventsOf sets.rd sets.wr fd ≠ 0 → set.isSome → set.any (· fd)) :
    Within (set.map fun _ => setFrom mask fs) set := by
  intro fd hfd
  rw [Option.any_map] at hfd
  obtain ⟨given, hgiven, hfd⟩ := Option.any_eq_true _ _ |>.mp hfd
  obtain ⟨f, hf, hfdf, hflag⟩ := (setFrom_iff mask fs fd).mp hfd
  obtain ⟨e, he, hanswer⟩ := mem_answered hfs hf
  obtain ⟨fd', hlt, hne, rfl⟩ := (mem_selectSet hes e).mp he
  have hsame : fd' = fd := by
    obtain ⟨_, rfl, -⟩ := hanswer
    exact Int.ofNat_inj.mp hfdf
  subst hsame
  rcases hreported _ _ hanswer hflag with h | h
  · rwa [hset] at h
  · exact hclosed fd' hlt h hne (by rw [hgiven, Option.isSome_some])

/-- The bits that are set in a set are its members. -/
theorem members_setFrom {es fs : List PollFd} (hes : selectSet nfds sets.rd sets.wr = .ok es)
    (hfs : List.Forall₂ (Replied w) es fs) (mask : ℕ) (set : Option (ℕ → Bool)) :
    members (set.map fun _ => setFrom mask fs) =
      fs.countP fun f => set.isSome && hasFlag f.revents mask := by
  cases set with
  | none =>
    rw [members, Option.map_none]
    simp
  | some given =>
    obtain ⟨-, hmax, -, -⟩ := selectSet_eq hes
    have hnodup : (fs.map PollFd.fd).Nodup := by
      rw [fd_answered hfs]
      exact nodup_selectSet hes
    have hrange : ∀ f ∈ fs, 0 ≤ f.fd ∧ f.fd < fdSetsize := by
      intro f hf
      obtain ⟨e, he, _, rfl, -⟩ := mem_answered hfs hf
      obtain ⟨fd, hlt, -, rfl⟩ := (mem_selectSet hes e).mp he
      dsimp only
      omega
    simp only [Option.isSome_some, Bool.true_and]
    exact countP_setFrom hnodup hrange

/-- Where both sets are given, a number that is not open and in one of them is reported in both. -/
theorem closedInBoth_of_onlyAsked {es : List PollFd} {rd wr : ℕ → Bool} {env : ℕ → IoEnv}
    {rounds : List (ℕ → IoEnv)} (hes : selectSet nfds sets.rd sets.wr = .ok es)
    (hrd : sets.rd = some rd) (hwr : sets.wr = some wr)
    (h : OnlyAsked sets (w.selectSets nfds sets timeoutMs (env :: rounds))) :
    ClosedInBoth w nfds sets := by
  have htells := @okmPoll_tells w nfds sets timeoutMs es hes (env :: rounds)
  intro fd hlt hnone
  by_contra hne
  -- the number is in one of the sets, so that it is asked about
  have hasked : eventsOf sets.rd sets.wr fd ≠ 0 := by
    intro hzero
    obtain ⟨h1, h2⟩ := (eventsOf_eq_zero_iff fd).mp hzero
    exact hne (h1.trans h2.symm)
  have he := (mem_selectSet hes _).mpr ⟨fd, hlt, hasked, rfl⟩
  have hfd : (0 : Int) ≤ fd := Int.natCast_nonneg fd
  obtain ⟨n, hn⟩ := @okmPoll_closed w nfds sets timeoutMs es hes _ he hfd hnone env rounds
  obtain ⟨f, hf, hanswer⟩ := answered_mem (htells.answered _ hn) he
  obtain ⟨hread, hwrite⟩ := entry_invalid hanswer hfd hnone
  have hffd : f.fd = fd := by
    obtain ⟨_, rfl, -⟩ := hanswer
    rfl
  rw [selectSets_eq hes] at h
  simp only [hn] at h
  have hin : sets.rd.any (· fd) := by
    apply h.read _ rfl
    rw [hrd, Option.map_some, Option.any_some]
    exact (setFrom_iff _ _ _).mpr ⟨f, hf, hffd, hread⟩
  have hout : sets.wr.any (· fd) := by
    apply h.write _ rfl
    rw [hwr, Option.map_some, Option.any_some]
    exact (setFrom_iff _ _ _).mpr ⟨f, hf, hffd, hwrite⟩
  exact hne (hin.trans hout.symm)

/-- Where no number that is not open is in one set of two only, nothing is reported that was not
asked. -/
theorem onlyAsked_of_closedInBoth {es : List PollFd} {rounds : List (ℕ → IoEnv)}
    (hes : selectSet nfds sets.rd sets.wr = .ok es)
    (h : sets.rd = none ∨ sets.wr = none ∨ ClosedInBoth w nfds sets) :
    OnlyAsked sets (w.selectSets nfds sets timeoutMs rounds) := by
  have htells := @okmPoll_tells w nfds sets timeoutMs es hes rounds
  rw [selectSets_eq hes]
  cases hresult : (w.okmPoll (some es) timeoutMs rounds).result with
  | none => exact ⟨nofun, nofun, nofun, nofun, nofun⟩
  | some result =>
    cases result with
    | error e => exact ⟨nofun, nofun, nofun, nofun, fun _ _ => rfl⟩
    | ok n =>
      have hfs := htells.answered _ hresult
      -- a number that is not open and is asked about is in both sets
      have hclosed : ∀ fd : ℕ, (fd : Int) < nfds → w.okmDescOf fd = none →
          eventsOf sets.rd sets.wr fd ≠ 0 →
            (sets.rd.isSome → sets.rd.any (· fd)) ∧ (sets.wr.isSome → sets.wr.any (· fd)) := by
        intro fd hlt hnone hne
        have hasked : sets.rd.any (· fd) = true ∨ sets.wr.any (· fd) = true := by
          by_contra hnot
          rw [not_or, Bool.not_eq_true, Bool.not_eq_true] at hnot
          exact hne ((eventsOf_eq_zero_iff fd).mpr hnot)
        rcases h with h | h | h
        · rw [h] at hasked ⊢
          exact ⟨nofun, fun _ => hasked.resolve_left nofun⟩
        · rw [h] at hasked ⊢
          exact ⟨fun _ => hasked.resolve_right nofun, nofun⟩
        · rw [h fd hlt hnone, or_self] at hasked
          exact ⟨fun _ => (h fd hlt hnone).trans hasked, fun _ => hasked⟩
      refine ⟨?_, ?_, ?_, ?_, nofun⟩
      · intro _ _
        exact within_setFrom hes hfs (fun e f h => (entry_reported h).1)
          (fun fd => hasFlag_eventsOf_in fd) (fun fd hlt hnone hne => (hclosed fd hlt hnone hne).1)
      · intro _ _
        exact within_setFrom hes hfs (fun e f h => (entry_reported h).2)
          (fun fd => hasFlag_eventsOf_out fd) (fun fd hlt hnone hne => (hclosed fd hlt hnone hne).2)
      · intro _ _ fd
        cases sets.ex <;> rfl
      · intro m hm
        cases hm
        rw [members_setFrom hes hfs, members_setFrom hes hfs]
        rfl

/-- **`select` reports only what was asked** exactly where it is refused, is given one of the two
sets only, or is given in both of them or in neither each number that is not open. -/
theorem onlyAsked_iff (w : PortState) (nfds : Int) (sets : FdSets) (timeoutMs : Int)
    (env : ℕ → IoEnv) (rounds : List (ℕ → IoEnv)) :
    OnlyAsked sets (w.selectSets nfds sets timeoutMs (env :: rounds)) ↔
      Refused nfds sets ∨ sets.rd = none ∨ sets.wr = none ∨ ClosedInBoth w nfds sets := by
  cases hes : selectSet nfds sets.rd sets.wr with
  | error e =>
    have hresult : w.selectSets nfds sets timeoutMs (env :: rounds) = ⟨some (.error e), sets⟩ := by
      unfold selectSets okmSelect
      simp only [hes]
    rw [hresult]
    exact iff_of_true ⟨nofun, nofun, nofun, nofun, fun _ _ => rfl⟩
      (Or.inl (refused_iff.mpr ⟨e, hes⟩))
  | ok es =>
    have hnot : ¬Refused nfds sets := by
      intro h
      obtain ⟨e, he⟩ := refused_iff.mp h
      rw [hes] at he
      cases he
    constructor
    · intro h
      right
      cases hrd : sets.rd with
      | none => exact Or.inl rfl
      | some rd =>
        cases hwr : sets.wr with
        | none => exact Or.inr (Or.inl rfl)
        | some wr => exact Or.inr (Or.inr (closedInBoth_of_onlyAsked hes hrd hwr h))
    · intro h
      exact onlyAsked_of_closedInBoth hes (h.resolve_left hnot)

/-- Number 7 is not open and is in the set of readers; the empty set of writers is left with it. -/
theorem onlyAsked_not_closed :
    ¬OnlyAsked ⟨some fun fd => fd == 7, some fun _ => false, none⟩
      ((okmTableInit 1 .supplied).selectSets 8 ⟨some fun fd => fd == 7, some fun _ => false, none⟩ 0
        [fun _ => silent]) := by
  have hleft : ((okmTableInit 1 .supplied).selectSets 8
      ⟨some fun fd => fd == 7, some fun _ => false, none⟩ 0 [fun _ => silent]).result =
        some (.ok 2) ∧
      ((okmTableInit 1 .supplied).selectSets 8 ⟨some fun fd => fd == 7, some fun _ => false, none⟩ 0
        [fun _ => silent]).sets.wr.any (· 7) := by decide +kernel
  intro h
  cases h.write 2 hleft.1 7 hleft.2

end PortState

end OpenkalMusl
