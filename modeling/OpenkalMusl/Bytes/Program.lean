import Mathlib.Algebra.Order.Ring.Nat
import Mathlib.Data.BitVec

/-!
# Programs over a memory of bytes

A program reads and writes a memory of bytes, a few bytes at a time, and the loads it makes are
recorded beside its result. A load or a store that asks for an aligned address faults at any other;
a loop has a bounded number of turns, and a program whose turns run out returns nothing.

`Does x R m Q` is total correctness: from the memory `m` the program returns, what it returns and
the memory it leaves satisfy `Q`, and every load satisfies `R`. Each construct has one
rule. A loop is written with what follows it, so that its body may leave the function; its rule asks
for an invariant and a measure.

## Main definitions

* `Program`, `Program.load`, `Program.store`, `Program.loop`: the constructs
* `Does`: total correctness, with the loads that may be made
* `Reaches`: a byte that a program loads whenever it returns

## Main results

* `does_bind`, `does_load`, `does_store`, `does_loop`: the rules
* `Does.run`: what a program that does something returns
* `reaches_byte`, `reaches_loop`: the rules of the bytes that are loaded
-/

namespace Bytes

/-- A memory: a byte at every address. -/
abbrev Memory := ℕ → UInt8

/-- A few bytes held at once, the first that of the lowest address. -/
abbrev Vec (w : ℕ) := Fin w → UInt8

/-- A load: the address it begins at, and how many bytes it takes. -/
structure Load where
  start : ℕ
  width : ℕ
  deriving DecidableEq, Repr

/-- The byte at `a` is one of the load's. -/
def Load.Has (l : Load) (a : ℕ) : Prop := l.start ≤ a ∧ a < l.start + l.width

/-- The bytes from `p` on. -/
def Memory.vec (m : Memory) (w p : ℕ) : Vec w := fun i => m (p + i)

/-- The bytes from `p` on replaced. -/
def Memory.put {w : ℕ} (m : Memory) (p : ℕ) (v : Vec w) : Memory := fun a =>
  if h : p ≤ a ∧ a < p + w then v ⟨a - p, Nat.sub_lt_left_of_lt_add h.1 h.2⟩ else m a

/-- A program: from a memory, its result, the memory it leaves and the loads it made. -/
def Program (α : Type) := Memory → Option (α × Memory × List Load)

namespace Program

variable {α β σ : Type}

/-- The program that returns at once. -/
def ret (a : α) : Program α := fun m => some (a, m, [])

/-- One program and then another. -/
def andThen (x : Program α) (f : α → Program β) : Program β := fun m =>
  match x m with
  | none => none
  | some (a, m', ls) =>
    match f a m' with
    | none => none
    | some (b, m'', ls') => some (b, m'', ls ++ ls')

instance : Monad Program where
  pure := ret
  bind := andThen

/-- The program that returns nothing. -/
def fault : Program α := fun _ => none

/-- `w` bytes loaded from `p` on. -/
def load (w p : ℕ) : Program (Vec w) := fun m => some (m.vec w p, m, [⟨p, w⟩])

/-- `w` bytes loaded from a multiple of `w`. -/
def loadAligned (w p : ℕ) : Program (Vec w) := if p % w = 0 then load w p else fault

/-- One byte loaded. -/
def byte (p : ℕ) : Program UInt8 := fun m => some (m p, m, [⟨p, 1⟩])

/-- A few bytes stored from `p` on. -/
def store {w : ℕ} (p : ℕ) (v : Vec w) : Program Unit := fun m => some ((), m.put p v, [])

/-- A few bytes stored at a multiple of their number. -/
def storeAligned {w : ℕ} (p : ℕ) (v : Vec w) : Program Unit :=
  if p % w = 0 then store p v else fault

/-- One byte stored. -/
def storeByte (p : ℕ) (b : UInt8) : Program Unit := store p (fun _ : Fin 1 => b)

/-- A loop and what follows it. While the test holds the body runs, and goes on to the next turn
from a state of its choice or leaves the function; then what follows runs from the last state. -/
def loop (test : σ → Bool) (body : σ → (σ → Program α) → Program α) (after : σ → Program α) :
    ℕ → σ → Program α
  | 0, _ => fault
  | turns + 1, s => if test s then body s (loop test body after turns) else after s

end Program

/-! ## What a program does -/

section Does

open Program

variable {α β σ : Type} {R : Load → Prop} {m : Memory}

/-- From the memory `m` the program returns, its result and the memory it leaves satisfy `Q`, and
every load it makes satisfies `R`. -/
def Does (x : Program α) (R : Load → Prop) (m : Memory) (Q : α → Memory → Prop) : Prop :=
  ∃ a m' ls, x m = some (a, m', ls) ∧ Q a m' ∧ ∀ l ∈ ls, R l

/-- What a program returns, from what it does. -/
theorem Does.run {x : Program α} {Q : α → Memory → Prop} (h : Does x R m Q) {a : α} {m' : Memory}
    {ls : List Load} (hx : x m = some (a, m', ls)) : Q a m' ∧ ∀ l ∈ ls, R l := by
  obtain ⟨a', m'', ls', hx', hQ, hR⟩ := h
  rw [hx] at hx'
  injection hx' with heq
  injection heq with ha heq
  injection heq with hm hl
  subst ha hm hl
  exact ⟨hQ, hR⟩

theorem Does.mono {x : Program α} {R' : Load → Prop} {Q Q' : α → Memory → Prop} (h : Does x R m Q)
    (hR : ∀ l, R l → R' l) (hQ : ∀ a m', Q a m' → Q' a m') : Does x R' m Q' := by
  obtain ⟨a, m', ls, hx, hq, hr⟩ := h
  exact ⟨a, m', ls, hx, hQ a m' hq, fun l hl => hR l (hr l hl)⟩

theorem Does.isSome {x : Program α} {Q : α → Memory → Prop} (h : Does x R m Q) : (x m).isSome := by
  obtain ⟨a, m', ls, hx, -, -⟩ := h
  rw [hx]
  rfl

theorem does_pure {Q : α → Memory → Prop} {a : α} (h : Q a m) : Does (pure a) R m Q := by
  refine ⟨a, m, [], rfl, h, ?_⟩
  intro l hl
  cases hl

theorem does_bind {x : Program α} {f : α → Program β} {Q : β → Memory → Prop}
    (h : Does x R m (fun a m' => Does (f a) R m' Q)) : Does (x >>= f) R m Q := by
  obtain ⟨a, m', ls, hx, ⟨b, m'', ls', hf, hQ, hR'⟩, hR⟩ := h
  refine ⟨b, m'', ls ++ ls', ?_, hQ, ?_⟩
  · change andThen x f m = _
    simp only [andThen, hx, hf]
  · intro l hl
    rcases List.mem_append.mp hl with hl | hl
    · exact hR l hl
    · exact hR' l hl

theorem does_load {w p : ℕ} {Q : Vec w → Memory → Prop} (hR : R ⟨p, w⟩) (h : Q (m.vec w p) m) :
    Does (load w p) R m Q := by
  refine ⟨_, m, _, rfl, h, ?_⟩
  intro l hl
  rw [List.mem_singleton.mp hl]
  exact hR

theorem does_loadAligned {w p : ℕ} {Q : Vec w → Memory → Prop} (hp : p % w = 0) (hR : R ⟨p, w⟩)
    (h : Q (m.vec w p) m) : Does (loadAligned w p) R m Q := by
  rw [loadAligned, if_pos hp]
  exact does_load hR h

/-- Four loads one after the other, within bytes that may be loaded. -/
theorem does_load_four {w p : ℕ} {f : Vec w → Vec w → Vec w → Vec w → Program α}
    {Q : α → Memory → Prop} (hR : ∀ q, p ≤ q → q + w ≤ p + 4 * w → R ⟨q, w⟩)
    (h : Does (f (m.vec w p) (m.vec w (p + w)) (m.vec w (p + 2 * w)) (m.vec w (p + 3 * w))) R m Q) :
    Does (do
      let a ← load w p
      let b ← load w (p + w)
      let c ← load w (p + 2 * w)
      let e ← load w (p + 3 * w)
      f a b c e) R m Q := by
  apply does_bind
  apply does_load (hR _ (by omega) (by omega))
  apply does_bind
  apply does_load (hR _ (by omega) (by omega))
  apply does_bind
  apply does_load (hR _ (by omega) (by omega))
  apply does_bind
  apply does_load (hR _ (by omega) (by omega))
  exact h

/-- Four aligned loads one after the other. -/
theorem does_loadAligned_four {w p : ℕ} {f : Vec w → Vec w → Vec w → Vec w → Program α}
    {Q : α → Memory → Prop} (hp : p % w = 0)
    (hR : ∀ q, p ≤ q → q + w ≤ p + 4 * w → R ⟨q, w⟩)
    (h : Does (f (m.vec w p) (m.vec w (p + w)) (m.vec w (p + 2 * w)) (m.vec w (p + 3 * w))) R m Q) :
    Does (do
      let a ← loadAligned w p
      let b ← loadAligned w (p + w)
      let c ← loadAligned w (p + 2 * w)
      let e ← loadAligned w (p + 3 * w)
      f a b c e) R m Q := by
  simp only [loadAligned, Nat.add_mod_right, Nat.add_mul_mod_self_right, if_pos hp]
  exact does_load_four hR h

theorem does_byte {p : ℕ} {Q : UInt8 → Memory → Prop} (hR : R ⟨p, 1⟩) (h : Q (m p) m) :
    Does (byte p) R m Q := by
  refine ⟨_, m, _, rfl, h, ?_⟩
  intro l hl
  rw [List.mem_singleton.mp hl]
  exact hR

theorem does_store {w p : ℕ} {v : Vec w} {Q : Unit → Memory → Prop} (h : Q () (m.put p v)) :
    Does (store p v) R m Q := by
  refine ⟨(), _, [], rfl, h, ?_⟩
  intro l hl
  cases hl

theorem does_storeAligned {w p : ℕ} {v : Vec w} {Q : Unit → Memory → Prop} (hp : p % w = 0)
    (h : Q () (m.put p v)) : Does (storeAligned p v) R m Q := by
  rw [storeAligned, if_pos hp]
  exact does_store h

theorem does_ite {c : Prop} [Decidable c] {x y : Program α} {Q : α → Memory → Prop}
    (ht : c → Does x R m Q) (hf : ¬c → Does y R m Q) : Does (if c then x else y) R m Q := by
  by_cases h : c
  · rw [if_pos h]
    exact ht h
  · rw [if_neg h]
    exact hf h

/-- The rule of the loop: the body keeps the invariant and lowers the measure each time it goes on
to the next turn, and the measure is below the number of turns at the start. -/
theorem does_loop {test : σ → Bool} {body : σ → (σ → Program α) → Program α}
    {after : σ → Program α} {Q : α → Memory → Prop} (I : σ → Memory → Prop) (v : σ → ℕ)
    (hbody : ∀ s m next, I s m → test s = true →
      (∀ s' m', I s' m' → v s' < v s → Does (next s') R m' Q) → Does (body s next) R m Q)
    (hafter : ∀ s m, I s m → test s = false → Does (after s) R m Q) {turns : ℕ} {s : σ}
    (hI : I s m) (hv : v s < turns) : Does (loop test body after turns s) R m Q := by
  -- the induction is on the turns that are left; the measure bounds them from below
  induction turns generalizing s m with
  | zero => exact absurd hv (Nat.not_lt_zero _)
  | succ turns ih =>
    rw [loop]
    cases htest : test s with
    | false => exact hafter s m hI htest
    | true =>
      refine hbody s m _ hI htest ?_
      intro s' m' hI' hlt
      exact ih hI' (by omega)

end Does

/-! ## What a program loads -/

section Reaches

open Program

variable {α σ : Type} {m : Memory} {a p : ℕ}

/-- The load is one of those that the program makes from the memory `m`. -/
def Made (x : Program α) (m : Memory) (l : Load) : Prop :=
    ∃ b m' ls, x m = some (b, m', ls) ∧ l ∈ ls

/-- Whenever the program returns it has loaded the byte at `a`. -/
def Reaches (x : Program α) (m : Memory) (a : ℕ) : Prop :=
  ∀ b m' ls, x m = some (b, m', ls) → ∃ l ∈ ls, l.Has a

/-- Every load of a program that does something is one that may be made. -/
theorem Does.of_made {R : Load → Prop} {x : Program α} {Q : α → Memory → Prop} {l : Load}
    (h : Does x R m Q) (hl : Made x m l) : R l := by
  obtain ⟨b, m', ls, hx, hmem⟩ := hl
  exact (h.run hx).2 l hmem

theorem Does.made_of_reaches {R : Load → Prop} {x : Program α} {Q : α → Memory → Prop}
    (h : Does x R m Q) (ha : Reaches x m a) : ∃ l, Made x m l ∧ l.Has a := by
  obtain ⟨b, m', ls, hx, -, -⟩ := h
  obtain ⟨l, hl, hhas⟩ := ha b m' ls hx
  exact ⟨l, ⟨b, m', ls, hx, hl⟩, hhas⟩

/-- What a byte and what follows it return. -/
theorem byte_bind_eq (f : UInt8 → Program α) :
    (byte p >>= f) m = (f (m p) m).map fun x => (x.1, x.2.1, ⟨p, 1⟩ :: x.2.2) := by
  change andThen (byte p) f m = _
  cases hf : f (m p) m with
  | none => simp only [andThen, byte, hf, Option.map_none]
  | some x => simp only [andThen, byte, hf, Option.map_some, List.cons_append, List.nil_append]

theorem reaches_byte {f : UInt8 → Program α} : Reaches (byte p >>= f) m p := by
  intro b m' ls hx
  rw [byte_bind_eq] at hx
  obtain ⟨x, -, heq⟩ := Option.map_eq_some_iff.mp hx
  cases heq
  exact ⟨⟨p, 1⟩, List.mem_cons_self, le_rfl, Nat.lt_succ_self p⟩

theorem reaches_after_byte {f : UInt8 → Program α} (h : Reaches (f (m p)) m a) :
    Reaches (byte p >>= f) m a := by
  intro b m' ls hx
  rw [byte_bind_eq] at hx
  obtain ⟨x, hf, heq⟩ := Option.map_eq_some_iff.mp hx
  cases heq
  obtain ⟨l, hl, hhas⟩ := h _ _ _ hf
  exact ⟨l, List.mem_cons_of_mem _ hl, hhas⟩

/-- The rule of the loop: while the invariant holds the test does, and the body reaches the byte if
every next turn from the invariant does. -/
theorem reaches_loop {test : σ → Bool} {body : σ → (σ → Program α) → Program α}
    {after : σ → Program α} (I : σ → Prop) (htest : ∀ s, I s → test s = true)
    (hbody : ∀ s next, I s → (∀ s', I s' → Reaches (next s') m a) → Reaches (body s next) m a)
    {turns : ℕ} {s : σ} (hI : I s) : Reaches (loop test body after turns s) m a := by
  induction turns generalizing s with
  | zero =>
    intro b m' ls hx
    cases hx
  | succ turns ih =>
    rw [loop, if_pos (htest s hI)]
    exact hbody s _ hI (fun s' hI' => ih hI')

end Reaches

end Bytes
