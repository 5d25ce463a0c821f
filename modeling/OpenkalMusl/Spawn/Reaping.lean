import OpenkalMusl.Spawn.Waiting

/-!
# Each child is waited for once

What the contexts of a program have in hand, and the entries of its table of children, agree in
every run in which no two calls of `wait4` use one entry. A program is in one place from its start
on: with the context that started it, in its entry, or with the call that closed its handle and
returns its identifier.

## Main definitions

* `Hand.Ok`: what is in hand is as the state says
* `Parent.Inv`: the contexts, the table and the history agree

## Main results

* `Inv.begin`, `Inv.reserve`, `Inv.fill`, `Inv.close`, `Inv.free`: what becomes of a program
* `once_while_alone`: each child is waited for once in every run whose calls keep apart
* `waited_twice`: two calls that wait for any child close one handle twice
-/

namespace OpenkalMusl

open Transition

/-- What is in hand is as the state says. -/
def Hand.Ok {m : ℕ} (s : Parent m) : Hand → Prop
  | .program n h => s.names h = some n ∧ s.pidOf n = none
  | .reserved i recorded => s.holds i = none ∧ (s.table.entry i).used = true ∧
    ∀ n h, recorded = some (n, h) → s.names h = some n ∧ s.pidOf n = none
  | .found i n | .settled i n => ∃ x, n = some x ∧ s.holds i = some x
  | .closed i n got => s.holds i = none ∧ (s.table.entry i).used = true ∧
    (∀ g, got = some g → g = (s.table.entry i).pid) ∧
    ∃ x, n = some x ∧ s.pidOf x = some (s.table.entry i).pid ∧ x ∉ Traffic.holding s.hist ∧
      some x ∉ s.reaped.map Prod.fst

namespace Parent

variable {m : ℕ}

/-- The contexts, the table and the history agree. -/
structure Inv (s : Parent m) : Prop where
  owned : Owned s.Owns s.hist
  hands : ∀ c hd, (s.call c).hand = some hd → hd.Ok s
  /-- An entry that one context changes is in no other's hand. -/
  apart : ∀ c d i, c ≠ d → (s.call c).changes i = true → (s.call d).entry ≠ some i
  used : ∀ i, (s.table.entry i).used = true → (∃ n, s.holds i = some n) ∨ s.Between i
  held : ∀ i n, s.holds i = some n → (s.table.entry i).used = true ∧
    s.names (s.table.entry i).h = some n ∧ s.pidOf n = some (s.table.entry i).pid
  /-- A recorded program is in its entry, with the call that closed its handle, or reaped. -/
  recorded : ∀ n p, s.pidOf n = some p → (∃ i, s.holds i = some n) ∨
    (∃ c i got, (s.call c).hand = some (.closed i (some n) got)) ∨ (some n, p) ∈ s.reaped
  reaped : ∀ r ∈ s.reaped, ∃ n, r.1 = some n ∧ s.pidOf n = some r.2 ∧ n ∉ Traffic.holding s.hist
  nodup : (s.reaped.map Prod.fst).Nodup
  /-- No two calls have closed the handle of one program. -/
  lone : ∀ c d i j n got got', (s.call c).hand = some (.closed i n got) →
    (s.call d).hand = some (.closed j n got') → c = d
  fresh : ∀ n, s.count ≤ n → n ∉ Traffic.holding s.hist ∧ s.pidOf n = none
  unused : s.stale = []

theorem inv_start (bounded : Bool) : (start m bounded).Inv where
  owned := by
    refine ⟨nofun, fun o n h => ?_, History.always_nil _⟩
    cases o with
    | inl i => cases h
    | inr c => cases h
  hands := nofun
  apart := nofun
  used := nofun
  held := nofun
  recorded := nofun
  reaped := nofun
  nodup := List.nodup_nil
  lone := nofun
  fresh := fun _ _ => ⟨Finset.notMem_empty _, rfl⟩
  unused := rfl

section Frame

variable {s u : Parent m} {c : Fin m} {pc : ChildPc}

theorem goto_call_self : (s.goto c pc).call c = pc := Function.update_self ..

theorem goto_call_of_ne {d : Fin m} (h : d ≠ c) : (s.goto c pc).call d = s.call d :=
  Function.update_of_ne h ..

/-- What holds of the contexts after one of them moved. -/
theorem calls_goto {P : Fin m → ChildPc → Prop} (h : ∀ d, d ≠ c → P d (s.call d)) (hc : P c pc)
    (d : Fin m) : P d ((s.goto c pc).call d) := by
  by_cases hd : d = c
  · subst hd
    rw [goto_call_self]
    exact hc
  · rw [goto_call_of_ne hd]
    exact h d hd

/-- Who has what after one context moved. -/
theorem owns_goto (o : ℕ ⊕ Fin m) (n : ℕ) :
    (s.goto c pc).Owns o n ↔
      (o ≠ .inr c ∧ s.Owns o n) ∨ (o = .inr c ∧ pc.hand.bind Hand.owns = some n) := by
  cases o with
  | inl i => simp [Owns, goto]
  | inr d =>
    by_cases hd : d = c
    · subst hd
      simp [Owns, goto_call_self]
    · simp [Owns, goto_call_of_ne hd, hd]

/-- What is in hand stays as it is where its entry and its program do. -/
theorem hand_frame {hd : Hand} (h : hd.Ok s)
    (hrow : ∀ i, hd.entry = some i → u.table.entry i = s.table.entry i ∧ u.holds i = s.holds i)
    (hown : ∀ n h, hd.owns = some n → s.names h = some n → s.pidOf n = none →
      u.names h = some n ∧ u.pidOf n = none)
    (hgone : ∀ n p, s.pidOf n = some p → n ∉ Traffic.holding s.hist →
      u.pidOf n = some p ∧ n ∉ Traffic.holding u.hist)
    (hreaped : ∀ i n got, hd = .closed i n got → n ∉ s.reaped.map Prod.fst →
      n ∉ u.reaped.map Prod.fst) : hd.Ok u := by
  cases hd with
  | program n h' => exact hown n h' rfl h.1 h.2
  | reserved i recorded =>
    obtain ⟨hholds, hused, hprogram⟩ := h
    obtain ⟨he, hh⟩ := hrow i rfl
    refine ⟨hh.trans hholds, by rw [he]; exact hused, ?_⟩
    rintro n h' rfl
    obtain ⟨hnames, hpid⟩ := hprogram n h' rfl
    exact hown n h' rfl hnames hpid
  | found i n =>
    obtain ⟨x, rfl, hx⟩ := h
    exact ⟨x, rfl, (hrow i rfl).2.trans hx⟩
  | settled i n =>
    obtain ⟨x, rfl, hx⟩ := h
    exact ⟨x, rfl, (hrow i rfl).2.trans hx⟩
  | closed i n got =>
    obtain ⟨hholds, hused, hgot, x, rfl, hpid, hgone', hnew⟩ := h
    obtain ⟨he, hh⟩ := hrow i rfl
    obtain ⟨hpid', hheld⟩ := hgone x _ hpid hgone'
    exact ⟨hh.trans hholds, by rw [he]; exact hused, by rwa [he], x, rfl, by rwa [he], hheld,
      hreaped i (some x) got rfl hnew⟩

/-- An entry without a program after one context moved. -/
theorem between_goto (i : ℕ) :
    (s.goto c pc).Between i ↔
      (∃ d, d ≠ c ∧ (s.call d).hand.bind Hand.keeps = some i) ∨
        pc.hand.bind Hand.keeps = some i := by
  constructor
  · rintro ⟨d, hd⟩
    by_cases hdc : d = c
    · subst hdc
      rw [goto_call_self] at hd
      exact Or.inr hd
    · rw [goto_call_of_ne hdc] at hd
      exact Or.inl ⟨d, hdc, hd⟩
  · rintro (⟨d, hdc, hd⟩ | hc)
    · refine ⟨d, ?_⟩
      rw [goto_call_of_ne hdc]
      exact hd
    · refine ⟨c, ?_⟩
      rw [goto_call_self]
      exact hc

theorem changes_iff {i : ℕ} :
    pc.changes i = true ↔ ∃ hd, pc.hand = some hd ∧ hd.changes = true ∧ hd.entry = some i := by
  unfold ChildPc.changes
  rw [Option.any_eq_true]
  simp

theorem entry_eq_some {i : ℕ} :
    pc.entry = some i ↔ ∃ hd, pc.hand = some hd ∧ hd.entry = some i := by
  unfold ChildPc.entry
  rw [Option.bind_eq_some_iff]

theorem entry_of_hand {hd : Hand} (h : pc.hand = some hd) : pc.entry = hd.entry := by
  unfold ChildPc.entry
  rw [h]
  rfl

theorem entry_of_changes {hd : Hand} (h : pc.hand = some hd) {i : ℕ} (hi : pc.changes i = true) :
    hd.entry = some i := by
  obtain ⟨hd', hhd', -, hentry⟩ := changes_iff.mp hi
  rw [h] at hhd'
  cases hhd'
  exact hentry

/-- An entry has no program after a context moved that had none for another entry. -/
theorem Between.goto {i : ℕ} (hi : s.Between i) (pc : ChildPc)
    (hne : (s.call c).hand.bind Hand.keeps ≠ some i) : (s.goto c pc).Between i := by
  obtain ⟨d, hd⟩ := hi
  refine (between_goto i).mpr (Or.inl ⟨d, ?_, hd⟩)
  rintro rfl
  exact hne hd

/-- Contexts keep apart after one moved, where it keeps apart from the others. -/
theorem Inv.apart_goto (h : s.Inv) (hsole : ∀ i, pc.changes i = true → s.Sole c i)
    (hfree : ∀ i, pc.entry = some i → ∀ d, d ≠ c → (s.call d).changes i = false) :
    ∀ d e i, d ≠ e → ((s.goto c pc).call d).changes i = true →
      ((s.goto c pc).call e).entry ≠ some i := by
  intro d e i hde hd he
  by_cases hdc : d = c
  · subst hdc
    rw [goto_call_self] at hd
    rw [goto_call_of_ne hde.symm] at he
    exact hsole i hd e hde.symm he
  · rw [goto_call_of_ne hdc] at hd
    by_cases hec : e = c
    · subst hec
      rw [goto_call_self] at he
      rw [hfree i he d hdc] at hd
      cases hd
    · rw [goto_call_of_ne hec] at he
      exact h.apart d e i hde hd he

/-- Calls that closed a handle closed different ones, after one moved. -/
theorem Inv.lone_goto (h : s.Inv) (hpc : ∀ i n got, pc.hand = some (.closed i n got) →
      ∀ d, d ≠ c → ∀ j got', (s.call d).hand ≠ some (.closed j n got')) :
    ∀ d e i j n got got', ((s.goto c pc).call d).hand = some (.closed i n got) →
      ((s.goto c pc).call e).hand = some (.closed j n got') → d = e := by
  intro d e i j n got got' hd he
  by_cases hdc : d = c
  · subst hdc
    rw [goto_call_self] at hd
    by_contra hde
    rw [goto_call_of_ne (Ne.symm hde)] at he
    exact hpc i n got hd e (Ne.symm hde) j got' he
  · rw [goto_call_of_ne hdc] at hd
    by_cases hec : e = c
    · subst hec
      rw [goto_call_self] at he
      exact (hpc j n got' he d hdc i got hd).elim
    · rw [goto_call_of_ne hec] at he
      exact h.lone d e i j n got got' hd he

/-- **A context moves**, and nothing else changes. -/
theorem Inv.move (h : s.Inv) (hok : ∀ hd, pc.hand = some hd → hd.Ok s)
    (hsole : ∀ i, pc.changes i = true → s.Sole c i)
    (hfree : ∀ i, pc.entry = some i → ∀ d, d ≠ c → (s.call d).changes i = false)
    (hown : pc.hand.bind Hand.owns = (s.call c).hand.bind Hand.owns)
    (hkeep : pc.hand.bind Hand.keeps = (s.call c).hand.bind Hand.keeps)
    (hclosed : ∀ i n, (∃ got, (s.call c).hand = some (.closed i n got)) ↔
      ∃ got, pc.hand = some (.closed i n got)) : (s.goto c pc).Inv where
  owned := by
    refine h.owned.congr fun o n => ?_
    rw [owns_goto, hown]
    by_cases ho : o = .inr c
    · subst ho
      simp [Owns]
    · simp [ho]
  hands := calls_goto (P := fun _ p => ∀ hd, p.hand = some hd → hd.Ok s) (fun d _ => h.hands d) hok
  apart := h.apart_goto hsole hfree
  used := by
    intro i hi
    rcases h.used i hi with hn | ⟨d, hd⟩
    · exact Or.inl hn
    · refine Or.inr ((between_goto i).mpr ?_)
      by_cases hdc : d = c
      · subst hdc
        exact Or.inr (hkeep.trans hd)
      · exact Or.inl ⟨d, hdc, hd⟩
  held := h.held
  recorded := by
    intro n p hp
    rcases h.recorded n p hp with hn | ⟨d, i, got, hd⟩ | hr
    · exact Or.inl hn
    · refine Or.inr (Or.inl ?_)
      by_cases hdc : d = c
      · subst hdc
        obtain ⟨got', hgot'⟩ := (hclosed i (some n)).mp ⟨got, hd⟩
        refine ⟨d, i, got', ?_⟩
        rw [goto_call_self]
        exact hgot'
      · refine ⟨d, i, got, ?_⟩
        rw [goto_call_of_ne hdc]
        exact hd
    · exact Or.inr (Or.inr hr)
  reaped := h.reaped
  nodup := h.nodup
  lone := by
    refine h.lone_goto fun i n got hpc d hdc j got' hd => ?_
    obtain ⟨got'', hc⟩ := (hclosed i n).mpr ⟨got, hpc⟩
    exact hdc (h.lone d c j i n got' got'' hd hc)
  fresh := h.fresh
  unused := h.unused

/-- A context that lets go of an entry it only found, or had none. -/
theorem Inv.letGo (h : s.Inv) (hpc : pc.hand = none)
    (hc : (s.call c).hand = none ∨ ∃ i n, (s.call c).hand = some (.found i n)) :
      (s.goto c pc).Inv := by
  refine h.move (by simp [hpc]) (fun i hi => ?_) (fun i hi => ?_) ?_ ?_ fun i n => ?_
  · simp [ChildPc.changes, hpc] at hi
  · simp [ChildPc.entry, hpc] at hi
  · rcases hc with hc | ⟨i, n, hc⟩
    · rw [hpc, hc]
    · rw [hpc, hc]
      rfl
  · rcases hc with hc | ⟨i, n, hc⟩
    · rw [hpc, hc]
    · rw [hpc, hc]
      rfl
  · rcases hc with hc | ⟨j, x, hc⟩ <;> simp [hpc, hc]

theorem Inv.sole (h : s.Inv) {i : ℕ} (hc : (s.call c).changes i = true) : s.Sole c i :=
  fun d hd => h.apart c d i hd.symm hc

theorem Inv.free_of_entry (h : s.Inv) {i : ℕ} (hc : (s.call c).entry = some i) :
    ∀ d, d ≠ c → (s.call d).changes i = false := by
  intro d hd
  by_contra hx
  exact h.apart d c i hd (by simpa using hx) hc

theorem owns_of_hand {hd : Hand} {n : ℕ} (hc : (s.call c).hand = some hd) (hn : hd.owns = some n) :
    s.Owns (.inr c) n := by
  show (s.call c).hand.bind Hand.owns = some n
  rw [hc]
  exact hn

/-- Where a program that was recorded is, after a context moved that had closed none. -/
theorem Inv.recorded_goto (h : s.Inv) (pc : ChildPc)
    (hc : ∀ i n got, (s.call c).hand ≠ some (.closed i n got)) {n : ℕ} {p : Int}
    (hp : s.pidOf n = some p) :
    (∃ i, s.holds i = some n) ∨
      (∃ d i got, ((s.goto c pc).call d).hand = some (.closed i (some n) got)) ∨
        (some n, p) ∈ s.reaped := by
  rcases h.recorded n p hp with hn | ⟨d, i, got, hd⟩ | hr
  · exact Or.inl hn
  · have hdc : d ≠ c := by
      rintro rfl
      exact hc i (some n) got hd
    refine Or.inr (Or.inl ⟨d, i, got, ?_⟩)
    rw [goto_call_of_ne hdc]
    exact hd
  · exact Or.inr (Or.inr hr)

/-- Another context's program is another one, under another handle. -/
theorem Inv.names_ne (h : s.Inv) {o o' : ℕ ⊕ Fin m} (hne : o ≠ o') {n n' : ℕ} (ho : s.Owns o n)
    (ho' : s.Owns o' n') {x y : Handle} (hx : s.names x = some n)
    (hy : s.names y = some n') : y ≠ x := by
  rintro rfl
  rw [hx] at hy
  obtain rfl := Option.some.inj hy
  exact hne (h.owned.unique ho ho')

/-- The programs that were recorded and released stay so when another begins. -/
theorem Inv.gone_begin (h : s.Inv) {n : ℕ} {p : Int} (hp : s.pidOf n = some p)
    (hgone : n ∉ Traffic.holding s.hist) : n ∉ Traffic.holding (s.hist ++ [.got s.count]) := by
  rw [Traffic.holding_got, Finset.mem_insert]
  rintro (rfl | hn)
  · rw [(h.fresh s.count le_rfl).2] at hp
    cases hp
  · exact hgone hn

/-- **A program begins** in the hand of a context. -/
theorem Inv.begin (h : s.Inv) {x : Handle} (hx : s.names x = none) {hd : Hand}
    (hpc : pc.hand = some hd) (hown : hd.owns = some s.count)
    (hc : (s.call c).hand = none ∧ hd = .program s.count x ∨
      ∃ i, (s.call c).hand = some (.reserved i none) ∧ hd = .reserved i (some (s.count, x))) :
    ((s.begin x).goto c pc).Inv := by
  have hfresh := h.fresh s.count le_rfl
  have hnothing : (s.call c).hand.bind Hand.owns = none := by
    rcases hc with ⟨hc, -⟩ | ⟨i, hc, -⟩ <;> rw [hc] <;> rfl
  have hnames : ∀ {y n}, s.names y = some n → (s.begin x).names y = some n := by
    intro y n hy
    have hyx : y ≠ x := by
      rintro rfl
      rw [hx] at hy
      cases hy
    exact (Function.update_of_ne hyx ..).trans hy
  refine ⟨?_, ?_, h.apart_goto (fun i hi => ?_) (fun i hi => ?_), fun i hi => ?_, fun i n hn => ?_,
    fun n p hp => ?_, fun r hr => ?_, h.nodup, ?_, fun n hn => ?_, h.unused⟩
  · refine h.owned.grant (o := .inr c) hfresh.1 fun o n => ?_
    rw [owns_goto]
    show (o ≠ .inr c ∧ s.Owns o n) ∨ _ ↔ _
    by_cases ho : o = .inr c
    · subst ho
      simp [Owns, hnothing, hpc, hown, eq_comm]
    · simp [ho]
  · refine calls_goto (P := fun _ p => ∀ hd, p.hand = some hd → hd.Ok ((s.begin x).goto c pc))
      (fun d _ hd' hd => ?_) (fun hd' hd => ?_)
    · exact hand_frame (h.hands d hd' hd) (fun i _ => ⟨rfl, rfl⟩)
        (fun n y _ hy hp => ⟨hnames hy, hp⟩)
        (fun n p hp hgone => ⟨hp, h.gone_begin hp hgone⟩) fun _ _ _ _ hr => hr
    · have hself : (s.begin x).names x = some s.count := Function.update_self ..
      rw [hpc] at hd
      obtain rfl := Option.some.inj hd
      rcases hc with ⟨-, rfl⟩ | ⟨i, hc, rfl⟩
      · exact ⟨hself, hfresh.2⟩
      · obtain ⟨hholds, hused, -⟩ := h.hands c _ hc
        refine ⟨hholds, hused, ?_⟩
        rintro n y ⟨⟩
        exact ⟨hself, hfresh.2⟩
  -- a fork had its entry before, and a spawn has none yet
  · rcases hc with ⟨-, rfl⟩ | ⟨j, hc, rfl⟩
    · simp [ChildPc.changes, hpc, Hand.changes] at hi
    · refine h.sole ?_
      simpa [ChildPc.changes, hpc, hc, Hand.changes, Hand.entry] using hi
  · rcases hc with ⟨-, rfl⟩ | ⟨j, hc, rfl⟩
    · simp [ChildPc.entry, hpc, Hand.entry] at hi
    · refine h.free_of_entry ?_
      simpa [ChildPc.entry, hpc, hc, Hand.entry] using hi
  · rcases h.used i hi with hn | ⟨d, hd⟩
    · exact Or.inl hn
    · refine Or.inr ((between_goto i).mpr ?_)
      by_cases hdc : d = c
      · subst hdc
        rcases hc with ⟨hc, -⟩ | ⟨j, hc, rfl⟩
        · rw [hc] at hd
          cases hd
        · rw [hc] at hd
          refine Or.inr ?_
          rw [hpc]
          exact hd
      · exact Or.inl ⟨d, hdc, hd⟩
  · obtain ⟨hused, hnm, hpid⟩ := h.held i n hn
    exact ⟨hused, hnames hnm, hpid⟩
  · refine h.recorded_goto _ (fun i n got hclosed => ?_) hp
    rcases hc with ⟨hc, -⟩ | ⟨j, hc, -⟩ <;> rw [hc] at hclosed <;> cases hclosed
  · obtain ⟨n, hr1, hp, hgone⟩ := h.reaped r hr
    exact ⟨n, hr1, hp, h.gone_begin hp hgone⟩
  · refine h.lone_goto fun i n got hpc' => ?_
    rw [hpc] at hpc'
    rcases hc with ⟨-, rfl⟩ | ⟨j, -, rfl⟩ <;> cases hpc'
  · have hlt : s.count < n := hn
    obtain ⟨hheld, hpid⟩ := h.fresh n (Nat.le_of_lt hlt)
    refine ⟨?_, hpid⟩
    show n ∉ Traffic.holding (s.hist ++ [.got s.count])
    rw [Traffic.holding_got, Finset.mem_insert]
    rintro (rfl | hmem)
    · exact lt_irrefl _ hlt
    · exact hheld hmem

/-- A handle that names a program is released: it names none, and the program is not held. -/
theorem release_eq {x : Handle} {n : ℕ} (hx : s.names x = some n) :
    s.release x =
      { s with names := Function.update s.names x none, hist := s.hist ++ [.gave n] } := by
  unfold release
  rw [hx]

theorem names_released {x y : Handle} {k : ℕ} (hy : y ≠ x) (hk : s.names y = some k) :
    Function.update s.names x none y = some k :=
  (Function.update_of_ne hy ..).trans hk

theorem not_holding_gave {k : ℕ} (n : ℕ) (hk : k ∉ Traffic.holding s.hist) :
    k ∉ Traffic.holding (s.hist ++ [.gave n]) := by
  rw [Traffic.holding_gave, Finset.mem_erase]
  exact fun hmem => hk hmem.2

/-- **A start that finds no entry** releases the handle of its program. -/
theorem Inv.unrecord (h : s.Inv) {n : ℕ} {x : Handle} (hc : (s.call c).hand = some (.program n x)) :
    ((s.release x).goto c .idle).Inv := by
  obtain ⟨hx, hpid⟩ := h.hands c _ hc
  have howns : s.Owns (.inr c) n := owns_of_hand hc rfl
  rw [release_eq hx]
  refine ⟨?_, ?_, h.apart_goto nofun nofun, fun i hi => ?_, fun i k hk => ?_, fun k p hp => ?_,
    fun r hr => ?_, h.nodup, h.lone_goto nofun, fun k hk => ?_, h.unused⟩
  · -- the program was the context's own, and is nobody's
    refine (h.owned.revoke (h.owned.held _ _ howns)).congr fun o k => ?_
    rw [owns_goto]
    show (o ≠ .inr c ∧ s.Owns o k) ∨ _ ↔ s.Owns o k ∧ k ≠ n
    by_cases ho : o = .inr c
    · subst ho
      have hown : s.Owns (.inr c) k ↔ k = n := by
        show (s.call c).hand.bind Hand.owns = some k ↔ k = n
        simp [hc, Hand.owns, eq_comm]
      simp [hown, ChildPc.hand]
    · have hne : s.Owns o k → k ≠ n := by
        rintro hk rfl
        exact ho (h.owned.unique hk howns)
      simp [ho]
      exact hne
  · refine calls_goto (P := fun _ p => ∀ hd, p.hand = some hd → hd.Ok _)
      (fun d hdc hd hhd => ?_) nofun
    refine hand_frame (h.hands d hd hhd) (fun i _ => ⟨rfl, rfl⟩) (fun k y hk hy hp => ⟨?_, hp⟩)
      (fun k p hp hgone => ⟨hp, not_holding_gave n hgone⟩) fun _ _ _ _ hr => hr
    exact names_released (h.names_ne (fun heq => hdc (Sum.inr.inj heq).symm) howns
      (owns_of_hand hhd hk) hx hy) hy
  · exact (h.used i hi).imp_right fun hb => hb.goto _ (by rw [hc]; nofun)
  · obtain ⟨hused, hnm, hp⟩ := h.held i k hk
    exact ⟨hused,
      names_released (h.names_ne Sum.inr_ne_inl howns (show s.Owns (.inl i) _ from hk) hx hnm) hnm,
      hp⟩
  · exact h.recorded_goto _ (fun i k got hclosed => by rw [hc] at hclosed; cases hclosed) hp
  · obtain ⟨k, hr1, hp, hgone⟩ := h.reaped r hr
    exact ⟨k, hr1, hp, not_holding_gave n hgone⟩
  · obtain ⟨hheld, hp⟩ := h.fresh k hk
    exact ⟨not_holding_gave n hheld, hp⟩

/-- An entry that is not in use is in nobody's hand. -/
theorem Inv.entry_ne_of_unused (h : s.Inv) {i : ℕ} (hi : (s.table.entry i).used = false)
    (d : Fin m) : (s.call d).entry ≠ some i := by
  intro hd
  obtain ⟨hand, hhand, hentry⟩ := entry_eq_some.mp hd
  have hok := h.hands d hand hhand
  have hused : (s.table.entry i).used = true := by
    cases hand with
    | program n x => cases hentry
    | reserved j r =>
      obtain rfl := Option.some.inj hentry
      exact hok.2.1
    | found j n =>
      obtain rfl := Option.some.inj hentry
      obtain ⟨x, -, hx⟩ := hok
      exact (h.held j x hx).1
    | settled j n =>
      obtain rfl := Option.some.inj hentry
      obtain ⟨x, -, hx⟩ := hok
      exact (h.held j x hx).1
    | closed j n got =>
      obtain rfl := Option.some.inj hentry
      exact hok.2.1
  rw [hi] at hused
  cases hused

/-- **An entry is reserved** by a context, for the program that it has. -/
theorem Inv.reserve (h : s.Inv) {i : ℕ} {t : Children} (ht : s.table.reserve = some (i, t))
    {r : Option (ℕ × Handle)} (hpc : pc.hand = some (.reserved i r)) (holder : Option (Fin m))
    (hc : (s.call c).hand = none ∧ r = none ∨
      ∃ n x, (s.call c).hand = some (.program n x) ∧ r = some (n, x)) :
    ({ s with table := t, holder := holder }.goto c pc).Inv := by
  obtain ⟨-, hfree, -, ht'⟩ := Children.reserve_some ht
  have hself : (t.entry i).used = true := by
    rw [ht']
    simp [Children.set]
  have hrow : ∀ {x}, x ≠ i → t.entry x = s.table.entry x := by
    intro x hx
    rw [ht']
    exact Function.update_of_ne hx ..
  have hnobody := h.entry_ne_of_unused hfree
  have hempty : s.holds i = none := by
    by_contra hn
    obtain ⟨n, hn⟩ := Option.ne_none_iff_exists'.mp hn
    rw [(h.held i n hn).1] at hfree
    cases hfree
  have hkept : (s.call c).hand.bind Hand.keeps = none := by
    rcases hc with ⟨hc, -⟩ | ⟨n, x, hc, -⟩ <;> rw [hc] <;> rfl
  refine ⟨?_, ?_, h.apart_goto (fun j hj => ?_) (fun j hj => ?_), fun j hj => ?_, fun j n hn => ?_,
    fun n p hp => ?_, h.reaped, h.nodup, h.lone_goto (by rw [hpc]; nofun), h.fresh, h.unused⟩
  · refine h.owned.congr fun o n => ?_
    rw [owns_goto]
    show (o ≠ .inr c ∧ s.Owns o n) ∨ _ ↔ s.Owns o n
    by_cases ho : o = .inr c
    · subst ho
      have hsame : (some (Hand.reserved i r)).bind Hand.owns = (s.call c).hand.bind Hand.owns := by
        rcases hc with ⟨hc, rfl⟩ | ⟨n, x, hc, rfl⟩ <;> rw [hc] <;> rfl
      simp only [hpc, hsame, Owns]
      simp
    · simp [ho]
  · refine calls_goto (P := fun _ p => ∀ hd, p.hand = some hd → hd.Ok _) (fun d _ hd hhd => ?_)
      (fun hd hhd => ?_)
    · refine hand_frame (h.hands d hd hhd) (fun j hj => ⟨hrow ?_, rfl⟩)
        (fun _ _ _ hn hp => ⟨hn, hp⟩)
        (fun _ _ hp hgone => ⟨hp, hgone⟩) fun _ _ _ _ hr => hr
      rintro rfl
      exact hnobody d (entry_eq_some.mpr ⟨hd, hhd, hj⟩)
    · rw [hpc] at hhd
      obtain rfl := Option.some.inj hhd
      refine ⟨hempty, hself, ?_⟩
      rintro n x rfl
      rcases hc with ⟨-, hr⟩ | ⟨n', x', hc, hr⟩
      · cases hr
      · cases hr
        exact h.hands c _ hc
  · obtain rfl := Option.some.inj (entry_of_changes hpc hj)
    exact fun d _ => hnobody d
  · rw [entry_of_hand hpc] at hj
    obtain rfl := Option.some.inj hj
    intro d _
    by_contra hx
    obtain ⟨hd', hhd', -, he⟩ := changes_iff.mp (by simpa using hx)
    exact hnobody d (entry_eq_some.mpr ⟨hd', hhd', he⟩)
  · change (t.entry j).used = true at hj
    by_cases hji : j = i
    · subst hji
      refine Or.inr ((between_goto j).mpr (Or.inr ?_))
      rw [hpc]
      rfl
    · rw [hrow hji] at hj
      exact (h.used j hj).imp_right fun hb => hb.goto _ (by rw [hkept]; nofun)
  · have hji : j ≠ i := by
      rintro rfl
      change s.holds j = some n at hn
      rw [hempty] at hn
      cases hn
    show (t.entry j).used = true ∧ s.names (t.entry j).h = some n ∧ s.pidOf n = some (t.entry j).pid
    rw [hrow hji]
    exact h.held j n hn
  · refine h.recorded_goto _ (fun j k got hclosed => ?_) hp
    rcases hc with ⟨hc, -⟩ | ⟨n, x, hc, -⟩ <;> rw [hc] at hclosed <;> cases hclosed

/-- The entry that is filled, and the others. -/
theorem entry_filled (t : Children) (id : Option Int) (i : ℕ) (x j : Handle) :
    (((t.commit id i x).childJob i j).entry i).used = (t.entry i).used ∧
      (((t.commit id i x).childJob i j).entry i).h = x ∧
      ∀ k, k ≠ i → ((t.commit id i x).childJob i j).entry k = t.entry k := by
  have hother : ∀ {u : Children} {e : ChildEntry} {k : ℕ}, k ≠ i →
    (u.set i e).entry k = u.entry k :=
    fun hk => Function.update_of_ne hk ..
  unfold Children.childJob
  split_ifs
  · refine ⟨by simp [Children.set, Children.commit], by simp [Children.set, Children.commit], ?_⟩
    intro k hk
    rw [hother hk]
    exact hother hk
  · exact ⟨by simp [Children.set, Children.commit], by simp [Children.set, Children.commit],
      fun k hk => hother hk⟩

/-- **An entry is filled** with the program that it was reserved for. -/
theorem Inv.fill (h : s.Inv) {i n : ℕ} {x j : Handle} (id : Option Int)
    (hc : (s.call c).hand = some (.reserved i (some (n, x)))) (holder : Option (Fin m)) :
    ({ s.fill id i n x j with holder := holder }.goto c .idle).Inv := by
  obtain ⟨hempty, hused, hprogram⟩ := h.hands c _ hc
  obtain ⟨hnames, hpid⟩ := hprogram n x rfl
  have howns : s.Owns (.inr c) n := owns_of_hand hc rfl
  have hheld := h.owned.held _ _ howns
  obtain ⟨hfused, hfh, hfother⟩ := entry_filled s.table id i x j
  have hsole : s.Sole c i := h.sole (changes_iff.mpr ⟨_, hc, rfl, rfl⟩)
  have hpidOf : ∀ {k p}, s.pidOf k = some p → (s.fill id i n x j).pidOf k = some p := by
    intro k p hk
    have hkn : k ≠ n := by
      rintro rfl
      rw [hpid] at hk
      cases hk
    exact (Function.update_of_ne hkn ..).trans hk
  have hholds : ∀ {k}, k ≠ i → (s.fill id i n x j).holds k = s.holds k :=
    fun hk => Function.update_of_ne hk ..
  have hself : (s.fill id i n x j).holds i = some n := Function.update_self ..
  refine ⟨?_, ?_, h.apart_goto nofun nofun, fun k hk => ?_, fun k b hb => ?_, fun k p hp => ?_,
    fun r hr => ?_, h.nodup, h.lone_goto nofun, fun k hk => ?_, h.unused⟩
  · -- the program goes from the context to the entry
    refine h.owned.move (o := .inl i) hheld fun o b => ?_
    rw [owns_goto]
    cases o with
    | inl k =>
      show (_ ∧ (s.fill id i n x j).holds k = some b) ∨ _ ↔ s.holds k = some b ∧ b ≠ n ∨ _
      by_cases hk : k = i
      · subst hk
        simp [hself, hempty, eq_comm]
      · have hne : s.holds k = some b → b ≠ n := by
          rintro hb rfl
          cases h.owned.unique (o := .inl k) hb howns
        simp [hholds hk, hk]
        exact hne
    | inr d =>
      show (_ ∧ s.Owns (.inr d) b) ∨ _ ↔ s.Owns (.inr d) b ∧ b ≠ n ∨ _
      by_cases hd : d = c
      · subst hd
        have hown : s.Owns (.inr d) b ↔ b = n := by
          show (s.call d).hand.bind Hand.owns = some b ↔ b = n
          simp [hc, Hand.owns, eq_comm]
        simp [hown, ChildPc.hand]
      · have hne : s.Owns (.inr d) b → b ≠ n := by
          rintro hb rfl
          exact hd (Sum.inr.inj (h.owned.unique hb howns))
        simp [hd]
        exact hne
  · refine calls_goto (P := fun _ p => ∀ hd, p.hand = some hd → hd.Ok _)
      (fun d hdc hd hhd => ?_) nofun
    refine hand_frame (h.hands d hd hhd) (fun k hk => ?_) (fun k y hk hy hp => ⟨hy, ?_⟩)
      (fun k p hp hgone => ⟨hpidOf hp, hgone⟩) fun _ _ _ _ hr => hr
    · have hki : k ≠ i := by
        rintro rfl
        exact hsole d hdc (entry_eq_some.mpr ⟨hd, hhd, hk⟩)
      exact ⟨hfother k hki, hholds hki⟩
    · have hkn : k ≠ n := by
        rintro rfl
        exact hdc (Sum.inr.inj (h.owned.unique (owns_of_hand hhd hk) howns))
      exact (Function.update_of_ne hkn ..).trans hp
  · by_cases hki : k = i
    · subst hki
      exact Or.inl ⟨n, hself⟩
    · change (((s.table.commit id i x).childJob i j).entry k).used = true at hk
      rw [hfother k hki] at hk
      refine (h.used k hk).imp (fun ⟨b, hb⟩ => ⟨b, (hholds hki).trans hb⟩) fun hb => hb.goto _ ?_
      rw [hc]
      exact fun heq => hki (Option.some.inj heq).symm
  · change (s.fill id i n x j).holds k = some b at hb
    show (((s.table.commit id i x).childJob i j).entry k).used = true ∧
      s.names (((s.table.commit id i x).childJob i j).entry k).h = some b ∧
      (s.fill id i n x j).pidOf b = some (((s.table.commit id i x).childJob i j).entry k).pid
    by_cases hki : k = i
    · subst hki
      rw [hself] at hb
      obtain rfl := Option.some.inj hb
      rw [hfused, hfh]
      exact ⟨hused, hnames, Function.update_self ..⟩
    · rw [hholds hki] at hb
      obtain ⟨hu, hn, hp⟩ := h.held k b hb
      rw [hfother k hki]
      exact ⟨hu, hn, hpidOf hp⟩
  · change (s.fill id i n x j).pidOf k = some p at hp
    by_cases hkn : k = n
    · subst hkn
      exact Or.inl ⟨i, hself⟩
    · have hp' : s.pidOf k = some p := (Function.update_of_ne hkn ..).symm.trans hp
      rcases h.recorded_goto (c := c) .idle (by rw [hc]; nofun) hp' with ⟨y, hy⟩ | hd | hr
      · have hyi : y ≠ i := by
          rintro rfl
          rw [hempty] at hy
          cases hy
        exact Or.inl ⟨y, (hholds hyi).trans hy⟩
      · exact Or.inr (Or.inl hd)
      · exact Or.inr (Or.inr hr)
  · obtain ⟨k, hr1, hp, hgone⟩ := h.reaped r hr
    exact ⟨k, hr1, hpidOf hp, hgone⟩
  · obtain ⟨hgone, hp⟩ := h.fresh k hk
    have hkn : k ≠ n := by
      rintro rfl
      exact hgone hheld
    exact ⟨hgone, (Function.update_of_ne hkn ..).trans hp⟩

/-- What is in use after an entry was given back, by the context that had it. -/
theorem Inv.used_released (h : s.Inv) {i k : ℕ} (pc : ChildPc)
    (hc : (s.call c).hand.bind Hand.keeps = some i)
    (hk : ((s.table.release i).entry k).used = true) :
    (∃ n, s.holds k = some n) ∨ (s.goto c pc).Between k := by
  have hki : k ≠ i := by
    rintro rfl
    simp [Children.release, Children.set] at hk
  rw [show (s.table.release i).entry k = s.table.entry k from Function.update_of_ne hki ..] at hk
  refine (h.used k hk).imp_right fun hb => hb.goto pc ?_
  rw [hc]
  exact fun heq => hki (Option.some.inj heq).symm

/-- A program that is in an entry stays there as another entry is given back. -/
theorem Inv.held_released (h : s.Inv) {i k n : ℕ} (hempty : s.holds i = none)
    (hk : s.holds k = some n) :
    ((s.table.release i).entry k).used = true ∧ s.names ((s.table.release i).entry k).h = some n ∧
      s.pidOf n = some ((s.table.release i).entry k).pid := by
  have hki : k ≠ i := by
    rintro rfl
    rw [hempty] at hk
    cases hk
  rw [show (s.table.release i).entry k = s.table.entry k from Function.update_of_ne hki ..]
  exact h.held k n hk

/-- **A fork that fails** gives its entry back. -/
theorem Inv.giveBack (h : s.Inv) {i : ℕ} (hc : (s.call c).hand = some (.reserved i none))
    (holder : Option (Fin m)) :
    ({ s with table := s.table.release i, holder := holder }.goto c .idle).Inv := by
  obtain ⟨hempty, -, -⟩ := h.hands c _ hc
  have hsole : s.Sole c i := h.sole (changes_iff.mpr ⟨_, hc, rfl, rfl⟩)
  have hrow : ∀ {k}, k ≠ i → (s.table.release i).entry k = s.table.entry k :=
    fun hk => Function.update_of_ne hk ..
  refine ⟨?_, ?_, h.apart_goto nofun nofun, fun k hk => ?_, fun k b hb => ?_, fun k p hp => ?_,
    h.reaped, h.nodup, h.lone_goto nofun, h.fresh, h.unused⟩
  · refine h.owned.congr fun o b => ?_
    rw [owns_goto]
    show (o ≠ .inr c ∧ s.Owns o b) ∨ _ ↔ s.Owns o b
    by_cases ho : o = .inr c
    · subst ho
      have hnone : ¬ s.Owns (.inr c) b := by
        show (s.call c).hand.bind Hand.owns ≠ some b
        rw [hc]
        nofun
      simp [hnone, ChildPc.hand]
    · simp [ho]
  · refine calls_goto (P := fun _ p => ∀ hd, p.hand = some hd → hd.Ok _)
      (fun d hdc hd hhd => ?_) nofun
    refine hand_frame (h.hands d hd hhd) (fun k hk => ⟨hrow ?_, rfl⟩) (fun _ _ _ hn hp => ⟨hn, hp⟩)
      (fun _ _ hp hgone => ⟨hp, hgone⟩) fun _ _ _ _ hr => hr
    rintro rfl
    exact hsole d hdc (entry_eq_some.mpr ⟨hd, hhd, hk⟩)
  · exact h.used_released _ (by rw [hc]; rfl) hk
  · exact h.held_released hempty hb
  · exact h.recorded_goto _ (by rw [hc]; nofun) hp

/-- **A call closes the handle** of the program that it waited for. -/
theorem Inv.close (h : s.Inv) {i n : ℕ} (hc : (s.call c).hand = some (.settled i (some n)))
    (hpc : pc.hand = some (.closed i (some n) none)) :
    ({ s.release (s.table.entry i).h with
      holds := Function.update s.holds i none }.goto c pc).Inv := by
  have hholds : s.holds i = some n := by
    obtain ⟨b, hb, hholds⟩ := h.hands c _ hc
    rw [Option.some.inj hb]
    exact hholds
  obtain ⟨hused, hnames, hpid⟩ := h.held i n hholds
  have howns : s.Owns (.inl i) n := hholds
  have hheld := h.owned.held _ _ howns
  have hsole : s.Sole c i := h.sole (changes_iff.mpr ⟨_, hc, rfl, rfl⟩)
  have hfree := h.free_of_entry (c := c) (i := i) (entry_eq_some.mpr ⟨_, hc, rfl⟩)
  generalize hx : (s.table.entry i).h = x at hnames
  have hgone : n ∉ Traffic.holding (s.hist ++ [.gave n]) := by
    rw [Traffic.holding_gave, Finset.mem_erase]
    exact fun hmem => hmem.1 rfl
  -- a program whose identifier was returned is not held, and this one is
  have hnew : some n ∉ s.reaped.map Prod.fst := by
    intro hmem
    obtain ⟨r, hr, hrn⟩ := List.mem_map.mp hmem
    obtain ⟨k, hk, -, hk'⟩ := h.reaped r hr
    rw [hk] at hrn
    obtain rfl := Option.some.inj hrn
    exact hk' hheld
  have hother : ∀ {k}, k ≠ i → Function.update s.holds i none k = s.holds k :=
    fun hk => Function.update_of_ne hk ..
  have hself : Function.update s.holds i none i = none := Function.update_self ..
  rw [release_eq hnames]
  refine ⟨?_, ?_, h.apart_goto (fun k hk => ?_) (fun k hk => ?_), fun k hk => ?_, fun k b hb => ?_,
    fun k p hp => ?_, fun r hr => ?_, h.nodup, h.lone_goto fun k b got hpc' d hdc j got' hd => ?_,
    fun k hk => ?_, h.unused⟩
  · -- the program was the entry's, which names a released handle from here on
    refine (h.owned.revoke hheld).congr fun o b => ?_
    rw [owns_goto]
    cases o with
    | inl k =>
      show (_ ∧ Function.update s.holds i none k = some b) ∨ _ ↔ s.holds k = some b ∧ b ≠ n
      by_cases hk : k = i
      · subst hk
        simp only [hself, hholds, reduceCtorEq, and_false, false_and, or_false, Option.some.injEq,
          false_iff, not_and, not_not]
        exact fun hbn => hbn.symm
      · have hne : s.holds k = some b → b ≠ n := by
          rintro hb rfl
          exact hk (Sum.inl.inj (h.owned.unique (o := .inl k) hb howns))
        simp [hother hk]
        exact hne
    | inr d =>
      show (_ ∧ s.Owns (.inr d) b) ∨ _ ↔ s.Owns (.inr d) b ∧ b ≠ n
      have hne : s.Owns (.inr d) b → b ≠ n := by
        rintro hb rfl
        cases h.owned.unique hb howns
      by_cases hd : d = c
      · subst hd
        have hnone : ¬ s.Owns (.inr d) b := by
          show (s.call d).hand.bind Hand.owns ≠ some b
          rw [hc]
          nofun
        simp [hnone, hpc, Hand.owns]
      · simp [hd]
        exact hne
  · refine calls_goto (P := fun _ p => ∀ hd, p.hand = some hd → hd.Ok _) (fun d hdc hd hhd => ?_)
      (fun hd hhd => ?_)
    · refine hand_frame (h.hands d hd hhd) (fun k hk => ⟨rfl, hother ?_⟩)
        (fun k y hk hy hp => ⟨?_, hp⟩)
        (fun k p hp hk => ⟨hp, not_holding_gave n hk⟩) fun _ _ _ _ hr => hr
      · rintro rfl
        exact hsole d hdc (entry_eq_some.mpr ⟨hd, hhd, hk⟩)
      · exact names_released (h.names_ne Sum.inl_ne_inr howns (owns_of_hand hhd hk) hnames hy) hy
    · rw [hpc] at hhd
      obtain rfl := Option.some.inj hhd
      exact ⟨hself, hused, nofun, n, rfl, hpid, hgone, hnew⟩
  · obtain rfl := Option.some.inj (entry_of_changes hpc hk)
    exact hsole
  · rw [entry_of_hand hpc] at hk
    obtain rfl := Option.some.inj hk
    exact hfree
  · by_cases hki : k = i
    · subst hki
      refine Or.inr ((between_goto k).mpr (Or.inr ?_))
      rw [hpc]
      rfl
    · refine (h.used k hk).imp (fun ⟨b, hb⟩ => ⟨b, (hother hki).trans hb⟩) fun hb => hb.goto _ ?_
      rw [hc]
      nofun
  · change Function.update s.holds i none k = some b at hb
    have hki : k ≠ i := by
      rintro rfl
      rw [hself] at hb
      cases hb
    rw [hother hki] at hb
    obtain ⟨hu, hn, hp⟩ := h.held k b hb
    have hne : (.inl i : ℕ ⊕ Fin m) ≠ .inl k := fun heq => hki (Sum.inl.inj heq).symm
    exact ⟨hu, names_released (h.names_ne hne howns (show s.Owns (.inl k) _ from hb) hnames hn) hn,
      hp⟩
  · by_cases hkn : k = n
    · subst hkn
      refine Or.inr (Or.inl ⟨c, i, none, ?_⟩)
      rw [goto_call_self]
      exact hpc
    · rcases h.recorded_goto (c := c) pc (by rw [hc]; nofun) hp with ⟨y, hy⟩ | hd | hr
      · have hyi : y ≠ i := by
          rintro rfl
          rw [hholds] at hy
          exact hkn (Option.some.inj hy).symm
        exact Or.inl ⟨y, (hother hyi).trans hy⟩
      · exact Or.inr (Or.inl hd)
      · exact Or.inr (Or.inr hr)
  · obtain ⟨k, hr1, hp, hk⟩ := h.reaped r hr
    exact ⟨k, hr1, hp, not_holding_gave n hk⟩
  · -- the program was held until now, and those that others closed were not
    rw [hpc] at hpc'
    cases hpc'
    obtain ⟨-, -, -, y, hy, -, hyheld, -⟩ := h.hands d _ hd
    obtain rfl := Option.some.inj hy
    exact hyheld hheld
  · obtain ⟨hk', hp⟩ := h.fresh k hk
    exact ⟨not_holding_gave n hk', hp⟩

/-- **A call gives its entry back** and returns the identifier of the program whose
handle it closed. -/
theorem Inv.free (h : s.Inv) {i : ℕ} {n : Option ℕ} {got : Int}
    (hc : (s.call c).hand = some (.closed i n (some got))) :
    ({ s with table := s.table.release i, reaped := s.reaped ++ [(n, got)] }.goto c .idle).Inv := by
  obtain ⟨hempty, -, hgot, b, rfl, hpid, hgone, hnew⟩ := h.hands c _ hc
  obtain rfl := hgot got rfl
  have hsole : s.Sole c i := h.sole (changes_iff.mpr ⟨_, hc, rfl, rfl⟩)
  have hrow : ∀ {k}, k ≠ i → (s.table.release i).entry k = s.table.entry k :=
    fun hk => Function.update_of_ne hk ..
  refine ⟨?_, ?_, h.apart_goto nofun nofun, fun k hk => ?_, fun k y hy => ?_, fun k p hp => ?_,
    fun r hr => ?_, ?_, h.lone_goto nofun, h.fresh, h.unused⟩
  · refine h.owned.congr fun o y => ?_
    rw [owns_goto]
    show (o ≠ .inr c ∧ s.Owns o y) ∨ _ ↔ s.Owns o y
    by_cases ho : o = .inr c
    · subst ho
      have hnone : ¬ s.Owns (.inr c) y := by
        show (s.call c).hand.bind Hand.owns ≠ some y
        rw [hc]
        nofun
      simp [hnone, ChildPc.hand]
    · simp [ho]
  · refine calls_goto (P := fun _ p => ∀ hd, p.hand = some hd → hd.Ok _)
      (fun d hdc hd hhd => ?_) nofun
    refine hand_frame (h.hands d hd hhd) (fun k hk => ⟨hrow ?_, rfl⟩) (fun _ _ _ hn hp => ⟨hn, hp⟩)
      (fun _ _ hp hk => ⟨hp, hk⟩) ?_
    · rintro rfl
      exact hsole d hdc (entry_eq_some.mpr ⟨hd, hhd, hk⟩)
    · rintro k y got rfl hy
      show y ∉ (s.reaped ++ [(some b, (s.table.entry i).pid)]).map Prod.fst
      rw [List.map_append, List.mem_append]
      rintro (hmem | hmem)
      · exact hy hmem
      · obtain rfl := List.mem_singleton.mp hmem
        exact hdc (h.lone d c k i (some b) _ _ hhd hc)
  · exact h.used_released _ (by rw [hc]; rfl) hk
  · exact h.held_released hempty hy
  · change s.pidOf k = some p at hp
    rcases h.recorded k p hp with hn | ⟨d, j, got, hd⟩ | hr
    · exact Or.inl hn
    · by_cases hdc : d = c
      · subst hdc
        rw [hc] at hd
        cases hd
        refine Or.inr (Or.inr (List.mem_append_right _ ?_))
        rw [hpid] at hp
        rw [Option.some.inj hp]
        exact List.mem_singleton_self _
      · refine Or.inr (Or.inl ⟨d, j, got, ?_⟩)
        rw [goto_call_of_ne hdc]
        exact hd
    · exact Or.inr (Or.inr (List.mem_append_left _ hr))
  · rcases List.mem_append.mp hr with hr | hr
    · exact h.reaped r hr
    · obtain rfl := List.mem_singleton.mp hr
      exact ⟨b, rfl, hpid, hgone⟩
  · show ((s.reaped ++ [(some b, (s.table.entry i).pid)]).map Prod.fst).Nodup
    rw [List.map_append, List.nodup_append]
    refine ⟨h.nodup, List.nodup_singleton _, fun y hy z hz => ?_⟩
    obtain rfl := List.mem_singleton.mp hz
    rintro rfl
    exact hnew hy

end Frame

/-! ## One step -/

section Steps

variable {s u : Parent m} {c : Fin m} {pc : ChildPc}

/-- A context moves with the same in hand. -/
theorem Inv.same (h : s.Inv) (hsame : pc.hand = (s.call c).hand) : (s.goto c pc).Inv := by
  refine h.move (by rw [hsame]; exact h.hands c) (fun i hi => h.sole ?_) (fun i hi => ?_)
    (by rw [hsame]) (by rw [hsame]) fun i n => by rw [hsame]
  · rwa [ChildPc.changes, ← hsame]
  · refine h.free_of_entry ?_
    rwa [ChildPc.entry, ← hsame]

/-- **An entry is found** that nobody is changing: a program is in it. -/
theorem Inv.find (h : s.Inv) (hc : (s.call c).hand = none) {i : ℕ}
    (hused : (s.table.entry i).used = true) (hfree : s.Free i)
    (hpc : pc.hand = some (.found i (s.holds i))) : (s.goto c pc).Inv := by
  -- an entry in use without a program is being changed by the context that has it
  have hin : ∃ n, s.holds i = some n := by
    refine (h.used i hused).resolve_right ?_
    rintro ⟨d, hd⟩
    obtain ⟨hd', hhd', hkeeps⟩ := Option.bind_eq_some_iff.mp hd
    have hchanges : (s.call d).changes i = true := by
      refine changes_iff.mpr ⟨hd', hhd', ?_⟩
      cases hd' with
      | program _ _ => cases hkeeps
      | found _ _ => cases hkeeps
      | settled _ _ => cases hkeeps
      | reserved j r => exact ⟨rfl, hkeeps⟩
      | closed j n got => exact ⟨rfl, hkeeps⟩
    rw [hfree d] at hchanges
    cases hchanges
  refine h.move ?_ (fun j hj => ?_) (fun j hj => ?_) (by rw [hc, hpc]; rfl) (by rw [hc, hpc]; rfl)
    (by simp [hc, hpc])
  · rw [hpc]
    rintro hd ⟨⟩
    obtain ⟨n, hn⟩ := hin
    exact ⟨n, hn, hn⟩
  · simp [ChildPc.changes, hpc, Hand.changes] at hj
  · rw [entry_of_hand hpc] at hj
    obtain rfl := Option.some.inj hj
    exact fun d _ => hfree d

/-- What a call found is there as long as it has it in hand. -/
theorem Inv.touch_eq (h : s.Inv) {i : ℕ} {found : Option ℕ}
    (hc : (s.call c).hand = some (.found i found) ∨ (s.call c).hand = some (.settled i found)) :
    s.touch c i found = s := by
  have hin : ∃ x, found = some x ∧ s.holds i = some x := by
    rcases hc with hc | hc
    · exact h.hands c (.found i found) hc
    · exact h.hands c (.settled i found) hc
  obtain ⟨x, rfl, hx⟩ := hin
  unfold touch
  rw [if_pos ⟨nofun, hx⟩]

/-- **The program has ended**, and the call has its entry for itself. -/
theorem Inv.settle (h : s.Inv) {i : ℕ} {found : Option ℕ}
    (hc : (s.call c).hand = some (.found i found)) (hsole : s.Sole c i)
    (hpc : pc.hand = some (.settled i found)) : (s.goto c pc).Inv := by
  refine h.move ?_ (fun j hj => ?_) (fun j hj => ?_) (by rw [hc, hpc]; rfl) (by rw [hc, hpc]; rfl)
    (by simp [hc, hpc])
  · rw [hpc]
    rintro hd ⟨⟩
    exact h.hands c (.found i found) hc
  · obtain rfl := Option.some.inj (entry_of_changes hpc hj)
    exact hsole
  · have hsame : pc.entry = (s.call c).entry := (entry_of_hand hpc).trans (entry_of_hand hc).symm
    exact h.free_of_entry (hsame.symm.trans hj)

theorem Inv.waitStep (h : s.Inv) (halone : s.Alone (.step c))
    (hu : s.waitStep c = some u) : u.Inv := by
  have hfinds : ∀ i ∈ (s.call c).finds s.table, s.Free i := halone
  unfold Parent.waitStep at hu
  cases hc : s.call c with
  | idle | started n x | recording i n x | forking i | wait b i n | ask k n =>
    rw [hc] at hu
    cases hu
  | find q k =>
    rw [hc] at hu hfinds
    have hnone : (s.call c).hand = none := by rw [hc]; rfl
    simp only at hu
    split_ifs at hu with hk haccepts hbounded hany
    · cases hu
      exact h.letGo rfl (Or.inl hnone)
    · cases hu
      exact h.letGo rfl (Or.inl hnone)
    · cases hu
      refine h.find hnone ?_ (hfinds k ?_) rfl
      · unfold WaitFor.accepts at haccepts
        exact (Bool.and_eq_true_iff.mp haccepts).1
      · simp only [ChildPc.finds, Option.mem_def]
        rw [if_pos ⟨hk, haccepts, by simpa using hany⟩]
    · cases hu
      exact h.letGo rfl (Or.inl hnone)
    · cases hu
      exact h.letGo rfl (Or.inl hnone)
  | poll k =>
    rw [hc] at hu hfinds
    have hnone : (s.call c).hand = none := by rw [hc]; rfl
    simp only at hu
    split_ifs at hu with hk hused
    · cases hu
      refine h.find hnone hused (hfinds k ?_) rfl
      simp only [ChildPc.finds, Option.mem_def]
      rw [if_pos ⟨hk, hused⟩]
    · cases hu
      exact h.letGo rfl (Or.inl hnone)
    · cases hu
      exact h.letGo rfl (Or.inl hnone)
  | usage i found =>
    rw [hc] at hu
    cases hu
    rw [h.touch_eq (Or.inr (by rw [hc]; rfl))]
    exact h.same (by rw [hc]; rfl)
  | close i found =>
    rw [hc] at hu
    cases hu
    have hsettled : (s.call c).hand = some (.settled i found) := by rw [hc]; rfl
    rw [h.touch_eq (Or.inr hsettled)]
    obtain ⟨n, rfl, hn⟩ := h.hands c _ hsettled
    rw [(h.held i n hn).2.1]
    exact h.close hsettled rfl
  | take i closed =>
    rw [hc] at hu
    cases hu
    have hclosed : (s.call c).hand = some (.closed i closed none) := by rw [hc]; rfl
    refine h.move ?_ (fun j hj => h.sole ?_) (fun j hj => h.free_of_entry ?_) (by rw [hclosed]; rfl)
      (by rw [hclosed]; rfl) ?_
    · rintro hd ⟨⟩
      obtain ⟨hempty, hused, -, hx⟩ := h.hands c _ hclosed
      refine ⟨hempty, hused, ?_, hx⟩
      rintro g ⟨⟩
      rfl
    · rw [ChildPc.changes, hclosed]
      exact hj
    · rw [ChildPc.entry, hclosed]
      exact hj
    · intro j n
      rw [hclosed]
      constructor
      · rintro ⟨got, ⟨⟩⟩
        exact ⟨_, rfl⟩
      · rintro ⟨got, ⟨⟩⟩
        exact ⟨_, rfl⟩
  | free i closed got =>
    rw [hc] at hu
    cases hu
    exact h.free (by rw [hc]; rfl)

theorem Inv.waitAnswer (h : s.Inv) {a : WaitAnswer} (halone : s.Alone (.answer c a))
    (hu : s.waitAnswer c a = some u) : u.Inv := by
  unfold Parent.waitAnswer at hu
  have hended : ∀ {i found}, (s.call c).hand = some (.found i found) → a = .ended → s.Sole c i := by
    rintro i found hc rfl
    exact halone i (entry_eq_some.mpr ⟨_, hc, rfl⟩)
  cases hc : s.call c with
  | idle | started n x | recording i n x | forking i | find q k | poll k | usage i n | close i n
  | take i n | free i n got =>
    rw [hc] at hu
    cases hu
  | wait b i found =>
    rw [hc] at hu
    have hfound : (s.call c).hand = some (.found i found) := by rw [hc]; rfl
    simp only [h.touch_eq (Or.inl hfound)] at hu
    cases a with
    | ended =>
      simp only [Option.ite_none_right_eq_some, Option.some.injEq] at hu
      obtain ⟨-, rfl⟩ := hu
      exact h.settle hfound (hended hfound rfl) rfl
    | again =>
      simp only [Option.ite_none_right_eq_some, Option.some.injEq] at hu
      obtain ⟨-, rfl⟩ := hu
      exact h.letGo rfl (Or.inr ⟨i, found, hfound⟩)
    | failed =>
      cases hu
      exact h.letGo rfl (Or.inr ⟨i, found, hfound⟩)
  | ask k found =>
    rw [hc] at hu
    have hfound : (s.call c).hand = some (.found k found) := by rw [hc]; rfl
    simp only [h.touch_eq (Or.inl hfound)] at hu
    cases a with
    | ended =>
      simp only [Option.ite_none_right_eq_some, Option.some.injEq] at hu
      obtain ⟨-, rfl⟩ := hu
      exact h.settle hfound (hended hfound rfl) rfl
    | again =>
      cases hu
      exact h.letGo rfl (Or.inr ⟨k, found, hfound⟩)
    | failed =>
      cases hu
      exact h.letGo rfl (Or.inr ⟨k, found, hfound⟩)

/-- The copy has no children. -/
theorem inv_copied (s : Parent m) : s.copied.Inv where
  owned := by
    refine ⟨nofun, fun o n hn => ?_, History.always_nil _⟩
    cases o with
    | inl i => cases hn
    | inr c => cases hn
  hands := nofun
  apart := nofun
  used := nofun
  held := nofun
  recorded := nofun
  reaped := nofun
  nodup := List.nodup_nil
  lone := nofun
  fresh := fun _ _ => ⟨Finset.notMem_empty _, rfl⟩
  unused := rfl

theorem Inv.frame (h : s.Inv) (htable : u.table = s.table) (hcall : u.call = s.call)
    (hcount : u.count = s.count) (hnames : u.names = s.names) (hholds : u.holds = s.holds)
    (hpid : u.pidOf = s.pidOf) (hhist : u.hist = s.hist) (hreaped : u.reaped = s.reaped)
    (hstale : u.stale = s.stale) : u.Inv := by
  obtain ⟨table, holder, call, bounded, count, ended, names, holds, pidOf, hist, reaped, stale⟩ := s
  obtain ⟨table', holder', call', bounded', count', ended', names', holds', pidOf', hist', reaped',
    stale'⟩ := u
  simp only at htable hcall hcount hnames hholds hpid hhist hreaped hstale
  subst htable hcall hcount hnames hholds hpid hhist hreaped hstale
  exact ⟨h.owned, h.hands, h.apart, h.used, h.held, h.recorded, h.reaped, h.nodup, h.lone, h.fresh,
    h.unused⟩

/-- **One step of a run that keeps apart** keeps the invariant. -/
theorem Inv.step (h : s.Inv) {l : ParentLabel m} (halone : s.Alone l) (hu : s.step l = some u) :
    u.Inv := by
  cases l with
  | spawn c x =>
    simp only [Parent.step, Option.ite_none_right_eq_some, Option.some.injEq] at hu
    obtain ⟨⟨hc, hx⟩, rfl⟩ := hu
    exact h.begin hx rfl rfl (Or.inl ⟨by rw [hc]; rfl, rfl⟩)
  | record c =>
    simp only [Parent.step] at hu
    split at hu
    · rename_i n x hc
      have hhand : (s.call c).hand = some (.program n x) := by rw [hc]; rfl
      simp only [Option.ite_none_right_eq_some] at hu
      obtain ⟨-, hu⟩ := hu
      split at hu
      · cases hu
        exact h.unrecord hhand
      · rename_i i t ht
        cases hu
        exact h.reserve ht rfl (some c) (Or.inr ⟨n, x, hhand, rfl⟩)
    · cases hu
  | commit c id j =>
    simp only [Parent.step] at hu
    split at hu
    · rename_i i n x hc
      cases hu
      exact h.fill id (by rw [hc]; rfl) none
    · cases hu
  | fork c =>
    simp only [Parent.step, Option.ite_none_right_eq_some] at hu
    obtain ⟨⟨hc, -⟩, hu⟩ := hu
    split at hu
    · cases hu
      exact h
    · rename_i i t ht
      cases hu
      exact h.reserve ht rfl (some c) (Or.inl ⟨by rw [hc]; rfl, rfl⟩)
  | forkFails c =>
    simp only [Parent.step] at hu
    split at hu
    · rename_i i hc
      cases hu
      exact h.giveBack (by rw [hc]; rfl) none
    · cases hu
  | forkStarts c x id =>
    simp only [Parent.step] at hu
    split at hu
    · rename_i i hc
      simp only [Option.ite_none_right_eq_some, Option.some.injEq] at hu
      obtain ⟨hx, rfl⟩ := hu
      -- the program begins in the forking context's hand, and is recorded from there
      have hbegun : ((s.begin x).goto c (.recording i s.count x)).Inv := h.begin hx rfl rfl
        (Or.inr ⟨i, by rw [hc]; rfl, rfl⟩)
      have hfilled := hbegun.fill (c := c) (i := i) (n := s.count) (x := x) (j := 0) id
        (by rw [goto_call_self]; rfl) none
      refine hfilled.frame rfl ?_ rfl rfl rfl rfl rfl rfl rfl
      exact (Function.update_idem ..).symm
    · cases hu
  | forkCopy c =>
    simp only [Parent.step] at hu
    split at hu
    · cases hu
      exact inv_copied s
    · cases hu
  | wait4 c q =>
    simp only [Parent.step, Option.ite_none_right_eq_some, Option.some.injEq] at hu
    obtain ⟨hc, rfl⟩ := hu
    exact h.letGo rfl (Or.inl (by rw [hc]; rfl))
  | step c => exact h.waitStep halone hu
  | answer c a => exact h.waitAnswer halone hu
  | ends n =>
    cases hu
    exact h.frame rfl rfl rfl rfl rfl rfl rfl rfl rfl

end Steps

/-! ## Runs -/

/-- A step of `wait4` changes the table only where it gives an entry back. -/
theorem table_waitStep {s u : Parent m} {c : Fin m} (hu : s.waitStep c = some u)
    (hfree : ∀ i closed got, s.call c ≠ .free i closed got) : u.table = s.table := by
  have htouch : ∀ i found, (s.touch c i found).table = s.table := by
    intro i found
    unfold touch
    split_ifs <;> rfl
  have hrelease : ∀ (v : Parent m) x, (v.release x).table = v.table := by
    intro v x
    unfold release
    split <;> rfl
  unfold waitStep at hu
  cases hc : s.call c with
  | idle | started n x | recording i n x | forking i | wait b i n | ask k n =>
    rw [hc] at hu
    cases hu
  | find q k =>
    rw [hc] at hu
    simp only at hu
    split_ifs at hu <;> cases hu <;> rfl
  | poll k =>
    rw [hc] at hu
    simp only at hu
    split_ifs at hu <;> cases hu <;> rfl
  | usage i found =>
    rw [hc] at hu
    cases hu
    exact htouch i found
  | close i found =>
    rw [hc] at hu
    cases hu
    exact (hrelease _ _).trans (htouch i found)
  | take i closed =>
    rw [hc] at hu
    cases hu
    rfl
  | free i closed got => exact absurd hc (hfree i closed got)

theorem table_waitAnswer {s u : Parent m} {c : Fin m} {a : WaitAnswer}
    (hu : s.waitAnswer c a = some u) : u.table = s.table := by
  have htouch : ∀ i found pc, ((s.touch c i found).goto c pc).table = s.table := by
    intro i found pc
    unfold touch goto
    split_ifs <;> rfl
  unfold waitAnswer at hu
  split at hu
  · split at hu
    · obtain ⟨-, hu⟩ := Option.ite_none_right_eq_some.mp hu
      cases hu
      exact htouch ..
    · obtain ⟨-, hu⟩ := Option.ite_none_right_eq_some.mp hu
      cases hu
      exact htouch ..
    · cases hu
      exact htouch ..
  · split at hu
    · obtain ⟨-, hu⟩ := Option.ite_none_right_eq_some.mp hu
      cases hu
      exact htouch ..
    · cases hu
      exact htouch ..
    · cases hu
      exact htouch ..
  · cases hu

theorem Inv.once {s : Parent m} (h : s.Inv) : s.Once where
  owned := h.owned
  used := by
    refine fun i => ⟨h.used i, ?_⟩
    rintro (⟨n, hn⟩ | ⟨c, hc⟩)
    · exact (h.held i n hn).1
    · obtain ⟨hd, hhd, hkeeps⟩ := Option.bind_eq_some_iff.mp hc
      have hok := h.hands c hd hhd
      cases hd with
      | program _ _ => cases hkeeps
      | found _ _ => cases hkeeps
      | settled _ _ => cases hkeeps
      | reserved j r =>
        obtain rfl := Option.some.inj hkeeps
        exact hok.2.1
      | closed j n got =>
        obtain rfl := Option.some.inj hkeeps
        exact hok.2.1
  held := fun i n hn => (h.held i n hn).2
  recorded := h.recorded
  reaped := h.reaped
  nodup := h.nodup
  unused := h.unused
  quiet := fun _ _ hu hfree => table_waitStep hu hfree
  unanswered := fun _ _ _ hu => table_waitAnswer hu
  givenBack := by
    intro c u i hc hu
    simp only [Parent.step, hc, Option.some.injEq] at hu
    rw [← hu]
    simp [goto, Children.release, Children.set]

/-- **Each child is waited for once** in every run in which no two calls use one entry. -/
theorem once_while_alone {bounded : Bool} {s : Parent m}
    (h : Reachable (restrict step Alone) (start m bounded) s) : s.Once := by
  have hinv : s.Inv := by
    refine h.invariant (inv_start bounded) fun u l v hu hv => ?_
    obtain ⟨halone, hstep⟩ := restrict_eq_some.mp hv
    exact hu.step halone hstep
  exact hinv.once

/-- A spawn and a fork, then both are waited for by two contexts, one of them not to hang. -/
def waitingApart : List (ParentLabel 2) :=
  [.spawn 0 70, .record 0, .commit 0 none 0, .fork 1, .forkStarts 1 71 (some 900), .ends 1,
    .wait4 1 ⟨-1, true⟩, .step 1, .step 1, .answer 1 .again, .step 1, .answer 1 .ended, .step 1,
    .step 1, .step 1, .step 1, .wait4 0 ⟨1001, false⟩, .step 0, .ends 0, .answer 0 .ended, .step 0,
    .step 0, .step 0, .step 0]

theorem once_waitingApart :
    ∃ s, Reachable (restrict step Alone) (start 2 true) s ∧
      s.hist = [.got 0, .got 1, .gave 1, .gave 0] ∧
        s.reaped = [(some 1, 900), (some 0, 1001)] ∧ s.Once := by
  have hrun : (run (restrict step Alone) (start 2 true) waitingApart).map
      (fun s => (s.hist, s.reaped)) =
        some ([.got 0, .got 1, .gave 1, .gave 0], [(some 1, 900), (some 0, 1001)]) := by
    decide +kernel
  obtain ⟨s, hs, hpc⟩ := Option.map_eq_some_iff.mp hrun
  simp only [Prod.mk.injEq] at hpc
  have hreach : Reachable (restrict step Alone) (start 2 true) s := ⟨waitingApart, hs⟩
  exact ⟨s, hreach, hpc.1, hpc.2, once_while_alone hreach⟩

/-- Two contexts wait for any child, and find the same one. -/
def waitingBoth : List (ParentLabel 2) :=
  [.spawn 0 70, .record 0, .commit 0 none 0, .wait4 0 ⟨-1, false⟩, .step 0, .wait4 1 ⟨-1, false⟩,
    .step 1, .ends 0, .answer 0 .ended, .answer 1 .ended, .step 0, .step 1, .step 0, .step 1,
    .step 0, .step 0, .step 1, .step 1]

/-- **One child is waited for twice**: both calls return its identifier, and the second closes a
handle that the first has released. -/
theorem waited_twice :
    ∃ s, Reachable step (start 2 true) s ∧ s.hist = [.got 0, .gave 0] ∧
      s.reaped = [(some 0, 1001), (none, 1001)] ∧ s.stale = [(1, 0)] ∧ ¬ s.Once := by
  have hrun : (run step (start 2 true) waitingBoth).map (fun s => (s.hist, s.reaped, s.stale)) =
      some ([.got 0, .gave 0], [(some 0, 1001), (none, 1001)], [(1, 0)]) := by decide +kernel
  obtain ⟨s, hs, hpc⟩ := Option.map_eq_some_iff.mp hrun
  simp only [Prod.mk.injEq] at hpc
  obtain ⟨hhist, hreaped, hstale⟩ := hpc
  refine ⟨s, ⟨waitingBoth, hs⟩, hhist, hreaped, hstale, fun h => ?_⟩
  have hunused := h.unused
  rw [hstale] at hunused
  cases hunused

end Parent

end OpenkalMusl
