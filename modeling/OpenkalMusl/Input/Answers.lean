import OpenkalMusl.Input.Poll
import Mathlib.Data.Nat.Bitwise

/-!
# What `poll` answers, and that it ends

A round answers every entry of the set: one without a number not at all, one whose number is not
open as such, and one that is open with no more than it asked about and with a hang-up. A call
returns the count of the last round, or a failure of it where nothing in it was ready. Where a bound
was given, each round that does not return spends a millisecond of it, or was the whole of it.

## Main definitions

* `PollFd.Reports`: what an entry is answered with
* `Replied`: an entry, and the entry as it was answered

## Main results

* `PortState.pollRound_answers`: a round answers every entry
* `PortState.pollRounds_take`: the rounds that a bound leaves time for
* `PortState.poll_exact`: what a call returns, reports and hands to a bounded operation
-/

namespace OpenkalMusl

/-- What an entry is answered with: of the input and the output it asks about, and with input a
hang-up. -/
inductive PollFd.Reports (w : PortState) (e : PollFd) : ℕ → Prop
  | unnamed (h : e.fd < 0) : Reports w e 0
  | invalid (h : 0 ≤ e.fd) (hnone : w.okmDescOf e.fd = none) : Reports w e pollNval
  | opened (hopen : (w.okmDescOf e.fd).isSome) (input output hup : Bool)
    (hinput : input → hasFlag e.events pollIn) (houtput : output → hasFlag e.events pollOut)
    (hhup : hup → input) :
    Reports w e ((if input then if hup then pollIn ||| pollHup else pollIn else 0) |||
      if output then pollOut else 0)

/-- An entry, and the entry as it was answered. -/
def Replied (w : PortState) (e f : PollFd) : Prop :=
  ∃ revents, f = { e with revents := revents } ∧ e.Reports w revents

/-- How many entries were answered with something. -/
def readyCount (es : List PollFd) : ℕ := es.countP fun e => e.revents != 0

/-- Every condition that is reported was asked about, or is one that need not be. -/
def PollFd.Contained (e : PollFd) : Prop :=
  ∀ i, e.revents.testBit i →
    e.events.testBit i ∨ (pollHup ||| pollErr ||| pollNval).testBit i

section Conditions

theorem hasFlag_two_pow (n i : ℕ) : hasFlag n (2 ^ i) = n.testBit i := by
  rw [hasFlag, Nat.and_two_pow]
  cases n.testBit i <;> simp

/-- A flag of one bit is asked about where the bit is. -/
theorem testBit_of_hasFlag {events i j : ℕ} (h : hasFlag events (2 ^ i))
    (hj : (2 ^ i).testBit j) : events.testBit j := by
  obtain rfl : i = j := by
    by_contra hne
    rw [Nat.testBit_two_pow_of_ne hne] at hj
    cases hj
  rwa [hasFlag_two_pow] at h

theorem PollFd.Reports.contained {w : PortState} {e : PollFd} {revents : ℕ}
    (h : e.Reports w revents) : PollFd.Contained { e with revents := revents } := by
  intro i hi
  change e.events.testBit i ∨ _
  change revents.testBit i at hi
  cases h with
  | unnamed _ =>
    rw [Nat.zero_testBit] at hi
    cases hi
  | invalid _ _ =>
    right
    rw [Nat.testBit_or, hi, Bool.or_true]
  | opened _ input output hup hinput houtput _ =>
    have hin : input → pollIn.testBit i → e.events.testBit i := fun h hbit =>
      testBit_of_hasFlag (i := 0) (hinput h) hbit
    have hout : output → pollOut.testBit i → e.events.testBit i := fun h hbit =>
      testBit_of_hasFlag (i := 2) (houtput h) hbit
    rw [Nat.testBit_or, Bool.or_eq_true] at hi
    -- a bit of what can be read, or of what can be written
    rcases hi with hi | hi
    · split_ifs at hi with h1 h2
      · rw [Nat.testBit_or, Bool.or_eq_true] at hi
        rcases hi with hi | hi
        · exact Or.inl (hin h1 hi)
        · right
          rw [Nat.testBit_or, Nat.testBit_or, hi, Bool.true_or, Bool.true_or]
      · exact Or.inl (hin h1 hi)
      · rw [Nat.zero_testBit] at hi
        cases hi
    · split_ifs at hi with h1
      · exact Or.inl (hout h1 hi)
      · rw [Nat.zero_testBit] at hi
        cases hi

theorem Replied.contained {w : PortState} {e f : PollFd} (h : Replied w e f) : f.Contained := by
  obtain ⟨revents, rfl, hreports⟩ := h
  exact hreports.contained

end Conditions

namespace PortState

/-! ## A round -/

section Rounds

variable {w : PortState}

/-- An enquiry opens and closes nothing. -/
theorem waitIn_fd (w : PortState) (env : IoEnv) (d : Fin okmMaxDesc) (ns : ℕ) :
    (w.waitIn env d ns).port.fd = w.fd := by
  have h := waited_waitIn w env d ns
  generalize w.waitIn env d ns = q at h
  cases h <;> rfl

theorem okmDescOf_of_fd {w w' : PortState} (h : w'.fd = w.fd) (fd : Int) :
    w'.okmDescOf fd = w.okmDescOf fd := by
  rw [okmDescOf, okmDescOf, h]

theorem pollOne_fd (ns : ℕ) (r : Round) (e : PollFd) (env : IoEnv) :
    (pollOne ns r e env).port.fd = r.port.fd := by
  unfold pollOne
  split_ifs
  · rfl
  · split
    · rfl
    · rename_i d _
      dsimp only
      split_ifs
      · rfl
      · have hfd := waitIn_fd r.port env d ns
        split <;> exact hfd
      · rfl

/-- What is reported of an entry that asks about output, or about both. -/
theorem reports_writable {e : PollFd} {d : Fin okmMaxDesc} (hd : w.okmDescOf e.fd = some d)
    (p : Desc) (input hup : Bool) (hinput : input → hasFlag e.events pollIn)
    (hhup : hup → input) :
    e.Reports w ((if input then if hup then pollIn ||| pollHup else pollIn else 0) |||
      e.writable p) := by
  have hopen : (w.okmDescOf e.fd).isSome := by rw [hd, Option.isSome_some]
  have h := PollFd.Reports.opened (w := w) (e := e) hopen input
    (decide (hasFlag e.events pollOut ∧ p.flags &&& oAccmode ≠ oRdonly)) hup hinput
    (fun h => (of_decide_eq_true h).1) hhup
  simpa only [PollFd.writable, decide_eq_true_eq] using h

theorem settle_ready (r : Round) (e : PollFd) (revents : ℕ) :
    (r.settle e revents).ready = r.ready + readyCount [{ e with revents := revents }] := by
  simp only [Round.settle, Round.answer, readyCount, List.countP_cons, List.countP_nil]
  split_ifs <;> rfl

/-- **An entry is answered.** -/
theorem pollOne_answers {r : Round} (hfd : r.port.fd = w.fd) (ns : ℕ) (e : PollFd) (env : IoEnv) :
    ∃ f, Replied w e f ∧ (pollOne ns r e env).entries = r.entries ++ [f] ∧
      (pollOne ns r e env).ready = r.ready + readyCount [f] := by
  have hdesc : r.port.okmDescOf e.fd = w.okmDescOf e.fd := okmDescOf_of_fd hfd e.fd
  unfold pollOne
  by_cases hneg : e.fd < 0
  · rw [if_pos hneg]
    exact ⟨_, ⟨0, rfl, .unnamed hneg⟩, rfl, rfl⟩
  · rw [if_neg hneg]
    cases hd : r.port.okmDescOf e.fd with
    | none =>
      rw [hdesc] at hd
      exact ⟨_, ⟨pollNval, rfl, .invalid (Int.not_lt.mp hneg) hd⟩, rfl, rfl⟩
    | some d =>
      rw [hdesc] at hd
      dsimp only
      -- it can be written at once, or is asked whether it can be read, or neither
      split_ifs with hready hroute
      · refine ⟨_, ⟨_, rfl, ?_⟩, rfl, settle_ready _ _ _⟩
        have hopen : (w.okmDescOf e.fd).isSome := by rw [hd, Option.isSome_some]
        exact .opened hopen (hasFlag e.events pollIn) (hasFlag e.events pollOut) false id id nofun
      · cases hq : (r.port.waitIn env d ns).result with
        | error err =>
          refine ⟨_, ⟨_, rfl, ?_⟩, rfl, settle_ready _ _ _⟩
          simpa using reports_writable hd (r.port.desc d) false false nofun nofun
        | ok ready =>
          cases ready with
          | true =>
            refine ⟨_, ⟨_, rfl, ?_⟩, rfl, settle_ready _ _ _⟩
            have h := reports_writable hd (r.port.desc d) true
              (decide (((r.port.waitIn env d ns).port.desc d).aheadEof = true ∧
                ((r.port.waitIn env d ns).port.desc d).kind ≠ .stream)) (fun _ => hroute.1)
              (fun _ => rfl)
            simpa only [readable, if_true, decide_eq_true_eq] using h
          | false =>
            refine ⟨_, ⟨_, rfl, ?_⟩, rfl, settle_ready _ _ _⟩
            simpa using reports_writable hd (r.port.desc d) false false nofun nofun
      · refine ⟨_, ⟨_, rfl, ?_⟩, rfl, settle_ready _ _ _⟩
        simpa using reports_writable hd (r.port.desc d) false false nofun nofun

/-- **A round answers every entry.** -/
theorem pollRound_answers {r : Round} (hfd : r.port.fd = w.fd) (ns : ℕ) (env : ℕ → IoEnv) (i : ℕ)
    (es : List PollFd) :
    ∃ fs, List.Forall₂ (Replied w) es fs ∧
      (pollRound ns env r i es).entries = r.entries ++ fs ∧
      (pollRound ns env r i es).ready = r.ready + readyCount fs := by
  induction es generalizing r i with
  | nil => exact ⟨[], .nil, (List.append_nil _).symm, rfl⟩
  | cons e es ih =>
    obtain ⟨f, hf, hone, hready⟩ := pollOne_answers hfd ns e (env i)
    obtain ⟨fs, hfs, hrest, hcount⟩ := ih ((pollOne_fd ns r e (env i)).trans hfd) (i + 1)
    have happend : readyCount (f :: fs) = readyCount [f] + readyCount fs :=
      @List.countP_append _ _ [f] fs
    refine ⟨f :: fs, .cons hf hfs, ?_, ?_⟩
    · rw [pollRound, hrest, hone, List.append_assoc, List.singleton_append]
    · rw [pollRound, hcount, hready, happend, Nat.add_assoc]

theorem pollRound_fd {r : Round} (ns : ℕ) (env : ℕ → IoEnv) (i : ℕ) (es : List PollFd) :
    (pollRound ns env r i es).port.fd = r.port.fd := by
  induction es generalizing r i with
  | nil => rfl
  | cons e es ih => rw [pollRound, ih, pollOne_fd]

/-- The enquiries of a round are all made under its bound. -/
theorem pollOne_asked (ns : ℕ) (r : Round) (e : PollFd) (env : IoEnv) :
    ∀ a ∈ (pollOne ns r e env).asked, a ∈ r.asked ∨ a.ns = ns := by
  unfold pollOne
  intro a ha
  split_ifs at ha
  · exact Or.inl ha
  · split at ha
    · exact Or.inl ha
    · rename_i d _
      dsimp only at ha
      split_ifs at ha
      · exact Or.inl ha
      · have hasked : a ∈ r.asked ++ [⟨d, ns, env⟩] := by
          split at ha <;> exact ha
        rcases List.mem_append.mp hasked with h | h
        · exact Or.inl h
        · rw [List.mem_singleton.mp h]
          exact Or.inr rfl
      · exact Or.inl ha

theorem pollRound_asked {r : Round} (ns : ℕ) (env : ℕ → IoEnv) (i : ℕ) (es : List PollFd) :
    ∀ a ∈ (pollRound ns env r i es).asked, a ∈ r.asked ∨ a.ns = ns := by
  induction es generalizing r i with
  | nil => exact fun a ha => Or.inl ha
  | cons e es ih =>
    intro a ha
    rcases ih (i + 1) a ha with h | h
    · exact pollOne_asked ns r e (env i) a h
    · exact Or.inr h

end Rounds

/-! ## The rounds of a call -/

section Calls

/-- What a call returns is said of the entries as they were answered in its last round. -/
structure Tells (w : PortState) (fds : List PollFd) (p : Polled) : Prop where
  answered : ∀ result, p.result = some result → List.Forall₂ (Replied w) fds p.entries
  count : ∀ n, p.result = some (.ok n) → n = readyCount p.entries
  failed : ∀ e, p.result = some (.error e) → readyCount p.entries = 0

variable {w : PortState} {fds : List PollFd} {single forever : Bool} {left : ℕ} {asked : List Asked}

/-- A call that has not returned says nothing. -/
theorem Tells.waiting (v : PortState) (entries : List PollFd) (asked : List Asked) :
    Tells w fds ⟨v, none, entries, asked⟩ := ⟨nofun, nofun, nofun⟩

theorem Tells.returned {v : PortState} {n : ℕ} {entries : List PollFd} {asked : List Asked}
    (h : List.Forall₂ (Replied w) fds entries) (hn : n = readyCount entries) :
    Tells w fds ⟨v, some (.ok n), entries, asked⟩ := by
  refine ⟨fun _ _ => h, ?_, nofun⟩
  rintro _ ⟨⟩
  exact hn

theorem Tells.failing {v : PortState} {e : Errno} {entries : List PollFd} {asked : List Asked}
    (h : List.Forall₂ (Replied w) fds entries) (hn : readyCount entries = 0) :
    Tells w fds ⟨v, some (.error e), entries, asked⟩ :=
  ⟨fun _ _ => h, nofun, fun _ _ => hn⟩

theorem pollRounds_exact {v : PortState} (hfd : v.fd = w.fd) (rounds : List (ℕ → IoEnv)) :
    Tells w fds (pollRounds fds single forever v left asked rounds) := by
  induction rounds generalizing v left asked with
  | nil => exact .waiting v _ asked
  | cons env rounds ih =>
    unfold pollRounds
    dsimp only
    generalize (if single then (if forever then 0 else if left ≠ 0 then left else okmNowNs)
      else okmNowNs) = ns
    have hround := pollRound_answers (r := { port := v }) hfd ns env 0 fds
    have hport := (pollRound_fd (r := { port := v }) ns env 0 fds).trans hfd
    generalize pollRound ns env { port := v } 0 fds = r at hround hport ⊢
    obtain ⟨fs, hfs, hentries, hcount⟩ := hround
    rw [List.nil_append] at hentries
    rw [Nat.zero_add, ← hentries] at hcount
    rw [← hentries] at hfs
    by_cases hready : r.ready ≠ 0
    · rw [if_pos hready]
      exact .returned hfs hcount
    · have hnone : readyCount r.entries = 0 := hcount.symm.trans (not_not.mp hready)
      rw [if_neg hready]
      cases r.failure with
      | some e => exact .failing hfs hnone
      | none =>
        -- the bound is spent, or the next round goes on from what this one left
        dsimp only
        split_ifs
        · exact .returned hfs hnone.symm
        · exact .returned hfs hnone.symm
        all_goals exact ih hport

/-- The bound of an enquiry is zero only where it is the whole wait of a single descriptor. -/
theorem pollRounds_asked {v : PortState} (rounds : List (ℕ → IoEnv))
    (hasked : ∀ a ∈ asked, a.ns = 0 → forever = true ∧ single = true) :
    ∀ a ∈ (pollRounds fds single forever v left asked rounds).asked,
      a.ns = 0 → forever = true ∧ single = true := by
  induction rounds generalizing v left asked with
  | nil => exact hasked
  | cons env rounds ih =>
    unfold pollRounds
    dsimp only
    -- the wait of this round is zero only as the whole of an unbounded one
    have hns : (if single then (if forever then 0 else if left ≠ 0 then left else okmNowNs)
        else okmNowNs) = 0 → forever = true ∧ single = true := by
      intro h
      split_ifs at h with h1 h2 h3
      · exact ⟨h2, h1⟩
      · exact absurd h h3
      · cases h
      · cases h
    generalize (if single then (if forever then 0 else if left ≠ 0 then left else okmNowNs)
      else okmNowNs) = ns at hns
    have hround := pollRound_asked (r := { port := v }) ns env 0 fds
    generalize pollRound ns env { port := v } 0 fds = r at hround ⊢
    have hall : ∀ a ∈ asked ++ r.asked, a.ns = 0 → forever = true ∧ single = true := by
      intro a ha hzero
      rcases List.mem_append.mp ha with h | h
      · exact hasked a h hzero
      · rcases hround a h with h | h
        · cases h
        · exact hns (h.symm.trans hzero)
    cases r.failure with
    | some e => split_ifs <;> exact hall
    | none =>
      dsimp only
      split_ifs
      · exact hall
      · exact hall
      · exact hall
      all_goals exact ih hall

/-- A round under a bound: the call returns, whatever rounds were to follow, or a millisecond of the
bound is spent. -/
theorem pollRounds_cons (single : Bool) (v : PortState) (left : ℕ) (asked : List Asked)
    (env : ℕ → IoEnv) :
    (∃ p : Polled, p.result.isSome ∧
      ∀ rounds, pollRounds fds single false v left asked (env :: rounds) = p) ∨
    left ≠ 0 ∧ ∃ v' asked', ∀ rounds,
      pollRounds fds single false v left asked (env :: rounds) =
        pollRounds fds single false v' (left - okmRoundNs) asked' rounds := by
  simp only [pollRounds]
  generalize pollRound (if single then (if false = true then 0 else if left ≠ 0 then left
    else okmNowNs) else okmNowNs) env { port := v } 0 fds = r
  by_cases hready : r.ready ≠ 0
  · left
    simp only [if_pos hready]
    exact ⟨_, rfl, fun _ => rfl⟩
  · simp only [if_neg hready]
    cases r.failure with
    | some e =>
      left
      exact ⟨_, rfl, fun _ => rfl⟩
    | none =>
      dsimp only
      -- nothing was ready and nothing failed: the bound decides
      by_cases hzero : left = 0
      · left
        rw [hzero]
        exact ⟨_, rfl, fun _ => rfl⟩
      · have hnot : ¬(!false && left == 0) = true := by simp [hzero]
        simp only [if_neg hnot]
        by_cases hwaited : single = true ∧ r.asked ≠ []
        · left
          simp only [if_pos hwaited]
          exact ⟨_, rfl, fun _ => rfl⟩
        · right
          refine ⟨hzero, r.port, asked ++ r.asked, ?_⟩
          intro rounds
          have hspent : (if left ≤ okmRoundNs then 0 else left - okmRoundNs) =
              left - okmRoundNs := by
            split_ifs <;> omega
          rw [if_neg hwaited, if_neg Bool.false_ne_true, hspent]

/-- **A bound ends the call**: each round spends a millisecond of it, so that there is one round
for each, and one more at its end. -/
theorem pollRounds_take {v : PortState} {t : ℕ} {rounds : List (ℕ → IoEnv)}
    (hleft : left ≤ t * okmRoundNs) (hrounds : t + 1 ≤ rounds.length) :
    (pollRounds fds single false v left asked rounds).result.isSome ∧
      pollRounds fds single false v left asked (rounds.take (t + 1)) =
        pollRounds fds single false v left asked rounds := by
  -- each millisecond of the bound pays for one round
  induction t generalizing rounds v left asked with
  | zero =>
    cases rounds with
    | nil => cases hrounds
    | cons env rounds =>
      rw [List.take_succ_cons]
      obtain ⟨p, hp, hall⟩ | ⟨hzero, -⟩ := @pollRounds_cons fds single v left asked env
      · rw [hall, hall]
        exact ⟨hp, rfl⟩
      · omega
  | succ t ih =>
    cases rounds with
    | nil => cases hrounds
    | cons env rounds =>
      rw [List.take_succ_cons]
      obtain ⟨p, hp, hall⟩ | ⟨-, v', asked', hall⟩ :=
        @pollRounds_cons fds single v left asked env
      · rw [hall, hall]
        exact ⟨hp, rfl⟩
      · rw [hall, hall]
        apply ih
        · rw [Nat.succ_mul] at hleft
          omega
        · exact Nat.le_of_succ_le_succ hrounds

end Calls

/-- **`poll` answers exactly, and ends.** It returns the number of entries it reports something of,
and of each no more than was asked and what need not be; a failure, only where the last round found
nothing ready. A bound of `t` milliseconds ends it after `t + 1` rounds. A bounded operation is
given no bound only where none was stated and the set is a single descriptor. -/
theorem poll_exact (w : PortState) {fds : List PollFd} (hlen : fds.length ≤ okmMaxFd)
    (timeoutMs : Int) (rounds : List (ℕ → IoEnv)) :
    (∀ n, (w.okmPoll (some fds) timeoutMs rounds).result = some (.ok n) →
      n = readyCount (w.okmPoll (some fds) timeoutMs rounds).entries) ∧
    (∀ result, (w.okmPoll (some fds) timeoutMs rounds).result = some result →
      List.Forall₂ (fun e f => f.fd = e.fd ∧ f.events = e.events ∧ f.Contained) fds
        (w.okmPoll (some fds) timeoutMs rounds).entries) ∧
    (∀ e, (w.okmPoll (some fds) timeoutMs rounds).result = some (.error e) →
      readyCount (w.okmPoll (some fds) timeoutMs rounds).entries = 0) ∧
    (∀ t : ℕ, timeoutMs = t → t + 1 ≤ rounds.length →
      (w.okmPoll (some fds) timeoutMs rounds).result.isSome ∧
        w.okmPoll (some fds) timeoutMs (rounds.take (t + 1)) =
          w.okmPoll (some fds) timeoutMs rounds) ∧
    ∀ a ∈ (w.okmPoll (some fds) timeoutMs rounds).asked,
      a.ns = 0 → timeoutMs < 0 ∧ fds.length = 1 := by
  -- the set is not refused, so that the call is its rounds
  have hcall : ∀ rounds, w.okmPoll (some fds) timeoutMs rounds =
      pollRounds fds (fds.length == 1 && fds.all fun e => decide (0 ≤ e.fd))
        (decide (timeoutMs < 0))
        w (if decide (timeoutMs < 0) then 0 else timeoutMs.toNat * 1000000) [] rounds := by
    intro rounds
    exact if_neg (Nat.not_lt.mpr hlen)
  have htells : Tells w fds (w.okmPoll (some fds) timeoutMs rounds) := by
    rw [hcall]
    exact pollRounds_exact rfl rounds
  refine ⟨htells.count, ?_, htells.failed, ?_, ?_⟩
  · intro result hresult
    refine (htells.answered result hresult).imp ?_
    intro e f hf
    refine ⟨?_, ?_, hf.contained⟩
    · obtain ⟨_, rfl, -⟩ := hf
      rfl
    · obtain ⟨_, rfl, -⟩ := hf
      rfl
  · intro t ht hrounds
    have hforever : decide (timeoutMs < 0) = false := by
      rw [decide_eq_false_iff_not]
      omega
    rw [hcall, hcall, hforever]
    apply pollRounds_take _ hrounds
    rw [if_neg Bool.false_ne_true, ht]
    exact le_rfl
  · intro a ha hzero
    rw [hcall] at ha
    obtain ⟨hforever, hsingle⟩ := pollRounds_asked rounds (fun _ h => by cases h) a ha hzero
    rw [Bool.and_eq_true, beq_iff_eq] at hsingle
    exact ⟨of_decide_eq_true hforever, hsingle.1⟩

/-- An environment that offers no operation with a bound, and in which nothing arrives. -/
def silent : IoEnv where
  timeoutRead := none
  streamRead := .error .io
  timeoutWrite := none
  streamWrite := .error .io
  haveNet := false
  haveDgram := false
  netListen := .error .notSupported
  netConnect := .error .notSupported
  connStream := 0
  timeoutAccept := none
  datagramOpen := .error .notSupported
  sendTo := .error .notSupported
  recvFrom := .error .notSupported
  timeoutRecvFrom := none
  netPeer := .error .notSupported
  netLocal := .error .notSupported
  listenerLocal := .error .notSupported
  datagramLocal := .error .notSupported
  malloc := false

/-- A number that is not open is answered at once, beside an entry without a number. -/
theorem poll_exact_closed :
    1 = readyCount ((okmTableInit 1 .supplied).okmPoll (some [⟨-1, pollIn, 0⟩, ⟨7, pollOut, 0⟩]) 5
      [fun _ => silent]).entries :=
  (poll_exact (okmTableInit 1 .supplied) (by decide) 5 [fun _ => silent]).1 1 (by decide +kernel)

end PortState

end OpenkalMusl
