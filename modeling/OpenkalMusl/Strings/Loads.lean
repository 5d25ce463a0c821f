import OpenkalMusl.Strings.Copy
import OpenkalMusl.Strings.Compare
import OpenkalMusl.Strings.Length

/-!
# The pages that the string functions load from

A function that is given no end, or an end it may not come to, loads whole vectors, before the first
byte of its argument and past the last. That no load takes it into a page the argument does not
reach is said against the functions a byte at a time: every byte of every load lies in the page of a
byte that the bytewise function loads in the same call. A function that is given a length loads
nothing outside the bytes of its argument.

## Main definitions

* `Strings.LoadsInPagesOf`: the loads of one program lie in the pages that another loads from
* `Strings.LoadsWithin`: the loads of a program lie within the bytes of its arguments

## Main results

* `Strings.Plain.memchr_reaches`, …: the bytes that the bytewise functions load
* `Strings.loads_in_reached_pages`: no function loads from a page its argument does not reach
-/

namespace OpenkalMusl.Strings

open Bytes Bytes.Program

/-- Both programs return, and every byte that the first loads lies in the page of one that the
second loads. -/
def LoadsInPagesOf {α : Type} (x y : Program α) (m : Memory) : Prop :=
  (x m).isSome ∧ (y m).isSome ∧ ∀ l, Made x m l → ∀ a, l.Has a →
    ∃ l', Made y m l' ∧ ∃ b, l'.Has b ∧ a / pageMin = b / pageMin

/-- The program returns, and every load lies within the `n` bytes of one of its arguments. -/
def LoadsWithin {α : Type} (x : Program α) (m : Memory) (args : List ℕ) (n : ℕ) : Prop :=
  (x m).isSome ∧ ∀ l, Made x m l → ∃ p ∈ args, p ≤ l.start ∧ l.start + l.width ≤ p + n

/-! ## The bytes that the bytewise functions load -/

section Bytewise

variable {m : Memory} {c : UInt8} {s l r k n turns : ℕ}

theorem Plain.memchr_reaches (hk : k < n) (hclear : ∀ j < k, m (s + j) ≠ c) :
    Reaches (Plain.memchr turns s c n) m (s + k) := by
  apply reaches_loop (fun i => i ≤ k)
  · intro i hi
    exact decide_eq_true (by omega)
  · intro i next hi hnext
    by_cases hik : i = k
    · subst hik
      exact reaches_byte
    · apply reaches_after_byte
      rw [if_neg (hclear i (by omega))]
      exact hnext _ (by omega)
  · exact Nat.zero_le k

theorem Plain.strchr_reaches (hclear : ∀ j < k, m (s + j) ≠ c) (hnonzero : ∀ j < k, m (s + j) ≠ 0) :
    Reaches (Plain.strchr turns s c) m (s + k) := by
  apply reaches_loop (fun i => i ≤ k)
  · intro i _
    rfl
  · intro i next hi hnext
    by_cases hik : i = k
    · subst hik
      exact reaches_byte
    · apply reaches_after_byte
      rw [if_neg (hclear i (by omega)), if_neg (hnonzero i (by omega))]
      exact hnext _ (by omega)
  · exact Nat.zero_le k

theorem Plain.strlen_reaches (hnonzero : ∀ j < k, m (s + j) ≠ 0) :
    Reaches (Plain.strlen turns s) m (s + k) := by
  apply reaches_loop (fun i => i ≤ k)
  · intro i _
    rfl
  · intro i next hi hnext
    by_cases hik : i = k
    · subst hik
      exact reaches_byte
    · apply reaches_after_byte
      rw [if_neg (hnonzero i (by omega))]
      exact hnext _ (by omega)
  · exact Nat.zero_le k

/-- Both strings are loaded up to the byte that stops the comparison. -/
theorem Plain.strcmp_reaches (turns : ℕ) (hclear : Clear (Stops m l r) k) :
    Reaches (Plain.strcmp turns l r) m (l + k) ∧ Reaches (Plain.strcmp turns l r) m (r + k) := by
  -- a turn before the last goes on
  have hgo : ∀ i < k, m (l + i) = m (r + i) ∧ m (l + i) ≠ 0 := by
    intro i hi
    have hstop := hclear i hi
    rw [Stops, not_or, ne_eq, not_not] at hstop
    exact hstop
  constructor
  · apply reaches_loop (fun i => i ≤ k)
    · intro i _
      rfl
    · intro i next hi hnext
      by_cases hik : i = k
      · subst hik
        exact reaches_byte
      · apply reaches_after_byte
        apply reaches_after_byte
        rw [if_pos (hgo i (by omega))]
        exact hnext _ (by omega)
    · exact Nat.zero_le k
  · apply reaches_loop (fun i => i ≤ k)
    · intro i _
      rfl
    · intro i next hi hnext
      apply reaches_after_byte
      by_cases hik : i = k
      · subst hik
        exact reaches_byte
      · apply reaches_after_byte
        rw [if_pos (hgo i (by omega))]
        exact hnext _ (by omega)
    · exact Nat.zero_le k

end Bytewise

/-! ## The loads of every variant -/

section Pages

variable {α : Type} {x y : Program α} {m : Memory}

/-- The loads lie in the pages of bytes that the bytewise function reaches. -/
theorem loadsInPagesOf_of_reaches {R R' : Load → Prop} {Q Q' : α → Memory → Prop}
    (hx : Does x R m Q) (hy : Does y R' m Q')
    (hR : ∀ l, R l → ∃ b, Reaches y m b ∧ ∀ a, l.Has a → a / pageMin = b / pageMin) :
    LoadsInPagesOf x y m := by
  refine ⟨hx.isSome, hy.isSome, ?_⟩
  intro l hl a ha
  obtain ⟨b, hb, hpage⟩ := hR l (hx.of_made hl)
  obtain ⟨l', hl', hhas⟩ := hy.made_of_reaches hb
  exact ⟨l', hl', b, hhas, hpage a ha⟩

theorem loadsInPagesOf_of_pagesRead {S : ℕ → Prop} {s finish : ℕ} {R' : Load → Prop}
    {Q Q' : α → Memory → Prop} (hx : Does x (PagesRead S s finish) m Q) (hy : Does y R' m Q')
    (hreach : ∀ k, s + k < finish → (∀ j < k, ¬S (s + j)) → Reaches y m (s + k)) :
    LoadsInPagesOf x y m := by
  refine loadsInPagesOf_of_reaches hx hy ?_
  rintro l ⟨p, ⟨hs, hp, hclear⟩, hpage⟩
  refine ⟨p, ?_, hpage⟩
  have hsub : s + (p - s) = p := Nat.add_sub_cancel' hs
  rw [← hsub]
  refine hreach (p - s) (by omega) ?_
  intro j hj
  exact hclear _ (by omega) (by omega)

end Pages

/-- In every variant, every load of `memchr`, `strchr`, `strlen` and `strcmp` lies in pages each of
which holds a byte that the bytewise function loads in the same call, and every load of `memcmp`,
`memcpy` and `memmove` within the `n` bytes of an argument. -/
theorem loads_in_reached_pages (V : Variant) (m : Memory) (turns : ℕ) :
    (∀ s c n, n < turns → (∀ p, Reads (fun a => m a = c) s (s + n) p → V.Low p) →
      LoadsInPagesOf (V.memchr turns s c n) (Plain.memchr turns s c n) m) ∧
    (∀ s i, EndsAt m s i → V.Low (s + i) → i + 1 < turns →
      (∀ c, LoadsInPagesOf (V.strchr turns s c) (Plain.strchr turns s c) m) ∧
        LoadsInPagesOf (V.strlen turns s) (Plain.strlen turns s) m) ∧
    (∀ l r k, FirstStop m l r k → k < turns →
      LoadsInPagesOf (V.strcmp turns l r) (Plain.strcmp turns l r) m) ∧
    (∀ l r n, n < turns → n + pageMin ≤ 2 ^ 64 →
      LoadsWithin (V.memcmp turns l r n) m [l, r] n) ∧
    ∀ d s n, n < turns → s + n ≤ 2 ^ V.addressBits → d + n ≤ 2 ^ V.addressBits →
      ((d + n ≤ s ∨ s + n ≤ d) → LoadsWithin (V.memcpy turns d s n) m [s] n) ∧
        LoadsWithin (V.memmove turns d s n) m [s] n := by
  refine ⟨?_, ?_, ?_, ?_, ?_⟩
  · intro s c n hturns hlow
    rw [← stopsAt_false] at hlow
    refine loadsInPagesOf_of_pagesRead
      (memchr_does V hlow (fun p hp => hp.2.1) (by omega) (by omega))
      (Plain.memchr_does hturns) ?_
    intro k hk hclear
    exact Plain.memchr_reaches (by omega) (fun j hj h => hclear j hj (Or.inl h))
  · intro s i hend hlow hturns
    constructor
    · intro c
      refine loadsInPagesOf_of_pagesRead (strchr_does V hend hlow hturns)
        (Plain.strchr_does hend (by omega)) ?_
      intro k hk hclear
      exact Plain.strchr_reaches (fun j hj h => hclear j hj (Or.inl h))
        (fun j hj h => hclear j hj (Or.inr ⟨rfl, h⟩))
    · refine loadsInPagesOf_of_pagesRead (strlen_does V hend hlow (by omega))
        (Plain.strlen_does hend (by omega)) ?_
      intro k hk hclear
      exact Plain.strlen_reaches (fun j hj h => hclear j hj (Or.inl h))
  · intro l r k hs hturns
    refine loadsInPagesOf_of_reaches (strcmp_does V hs hturns) (Plain.strcmp_does hs hturns) ?_
    rintro ld ⟨j, hj, hpage⟩
    obtain ⟨hl, hr⟩ := Plain.strcmp_reaches turns (hs.clear.mono hj)
    rcases hpage with hpage | hpage
    · exact ⟨l + j, hl, hpage⟩
    · exact ⟨r + j, hr, hpage⟩
  · intro l r n hturns hspace
    have hpage : pageMin = 4096 := rfl
    have hdoes := memcmp_does (m := m) (l := l) (r := r) V
      (R := fun ld => ∃ p ∈ [l, r], p ≤ ld.start ∧ ld.start + ld.width ≤ p + n)
      (fun p w hp hw => ⟨l, by simp, hp, hw⟩) (fun p w hp hw => ⟨r, by simp, hp, hw⟩)
      (by omega) hturns
    exact ⟨hdoes.isSome, fun ld hld => hdoes.of_made hld⟩
  · intro d s n hturns hs hd
    have hR : ∀ p w, s ≤ p → p + w ≤ s + n → ∃ q ∈ [s], q ≤ p ∧ p + w ≤ q + n :=
      fun p w hp hw => ⟨s, List.mem_singleton_self s, hp, hw⟩
    constructor
    · intro hdisj
      have hdoes := memcpy_does (m := m) V hturns (show d < s ∨ s + n ≤ d by omega)
        (R := fun ld => ∃ q ∈ [s], q ≤ ld.start ∧ ld.start + ld.width ≤ q + n) hR
      exact ⟨hdoes.isSome, fun ld hld => hdoes.of_made hld⟩
    · have hdoes := memmove_does (m := m) V hturns hs hd
        (R := fun ld => ∃ q ∈ [s], q ≤ ld.start ∧ ld.start + ld.width ≤ q + n) hR
      exact ⟨hdoes.isSome, fun ld hld => hdoes.of_made hld⟩

/-- A string whose terminator is the last byte of its page, over thirty-two bytes at a time. -/
theorem loads_in_reached_pages_pageEnd :
    EndsAt (fun a => if a = 8191 then 0 else 1) 8100 91 ∧
      LoadsInPagesOf (Variant.avx2.strlen 100 8100) (Plain.strlen 100 8100)
        (fun a => if a = 8191 then 0 else 1) := by
  have hend : EndsAt (fun a => if a = 8191 then 0 else 1) 8100 91 := by
    refine ⟨rfl, ?_⟩
    intro j hj
    rw [if_neg (by omega)]
    decide
  exact ⟨hend, ((loads_in_reached_pages .avx2 _ 100).2.1 8100 91 hend
    (by unfold Variant.Low; decide)
    (by decide)).2⟩

end OpenkalMusl.Strings
