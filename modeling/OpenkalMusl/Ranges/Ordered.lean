import Mathlib.Data.List.Basic
import Mathlib.Data.Nat.Basic
import Mathlib.Order.Lattice

/-!
# Ordered lists of ranges, and a search in them

A range runs from `lo` to `hi`, `hi` excluded. In a list in which every range ends before the next
begins, at most one range contains a given point, and bisection on the ends finds the first range
that ends above it: the one that contains the point if any does, and the place to insert a range
that begins there.

## Main definitions

* `bisect p fuel lo hi`: the first index at which `p` fails, by halving
* `Ordered lo hi l`: every range of `l` is nonempty and ends before the next begins

## Main results

* `bisect_spec`: bisection of a predicate that holds up to an index and fails from there on
* `Ordered.lower_spec`: the index of the first range that ends above a point
* `Ordered.insert`, `Ordered.sublist`: insertion at that index, and removal
* `Ordered.eq_of_mem`: one range contains a point
-/

namespace Ranges

/-! ## Bisection -/

/-- The first index of `[lo, hi)` at which `p` fails, by halving the interval. -/
def bisect (p : ℕ → Bool) : ℕ → ℕ → ℕ → ℕ
  | 0, lo, _ => lo
  | fuel + 1, lo, hi =>
    if lo < hi then
      let mid := lo + (hi - lo) / 2
      if p mid then bisect p fuel (mid + 1) hi else bisect p fuel lo mid
    else lo

/-- **Bisection** finds where `p` begins to fail, when it holds before an index that it holds at. -/
theorem bisect_spec {p : ℕ → Bool} {n : ℕ} (hmono : ∀ i j, i ≤ j → j < n → p j → p i)
    {fuel lo hi : ℕ} (hle : lo ≤ hi) (hn : hi ≤ n) (hfuel : hi - lo ≤ fuel)
    (hbelow : ∀ i < lo, p i) (habove : ∀ i, hi ≤ i → i < n → ¬ p i) :
    bisect p fuel lo hi ≤ n ∧ (∀ i < bisect p fuel lo hi, p i) ∧
      ∀ i, bisect p fuel lo hi ≤ i → i < n → ¬ p i := by
  induction fuel generalizing lo hi with
  | zero =>
    obtain rfl : lo = hi := by omega
    exact ⟨hn, hbelow, habove⟩
  | succ fuel ih =>
    by_cases hlt : lo < hi
    · simp only [bisect, hlt, if_true]
      by_cases hp : p (lo + (hi - lo) / 2)
      · -- everything up to the middle is passed
        rw [if_pos hp]
        refine ih (by omega) hn (by omega) (fun i hi' => ?_) habove
        exact hmono i _ (by omega) (by omega) hp
      · rw [if_neg hp]
        refine ih (by omega) (by omega) (by omega) hbelow fun i hi' hin hpi => ?_
        exact hp (hmono _ i hi' hin hpi)
    · simp only [bisect, hlt, if_false]
      obtain rfl : lo = hi := by omega
      exact ⟨hn, hbelow, habove⟩

/-! ## Ordered ranges -/

variable {ρ α : Type*} [LinearOrder α] {lo hi : ρ → α} {l : List ρ}

/-- Every range is nonempty and ends before the next begins. -/
structure Ordered (lo hi : ρ → α) (l : List ρ) : Prop where
  nonempty : ∀ r ∈ l, lo r < hi r
  apart : l.Pairwise fun r q => hi r ≤ lo q

theorem ordered_nil : Ordered lo hi [] := ⟨nofun, List.Pairwise.nil⟩

theorem Ordered.sublist (h : Ordered lo hi l) {l' : List ρ} (hl : l'.Sublist l) :
    Ordered lo hi l' :=
  ⟨fun r hr => h.nonempty r (hl.subset hr), h.apart.sublist hl⟩

theorem Ordered.lo_lt (h : Ordered lo hi l) : l.Pairwise fun r q => lo r < lo q := by
  refine h.apart.imp_of_mem fun {r q} hr _ hrq => ?_
  exact lt_of_lt_of_le (h.nonempty r hr) hrq

/-- A range at a smaller index ends before one at a larger begins. -/
theorem Ordered.hi_le_lo (h : Ordered lo hi l) {i j : ℕ} {r q : ρ} (hij : i < j)
    (hi' : l[i]? = some r) (hj : l[j]? = some q) : hi r ≤ lo q := by
  obtain ⟨hil, rfl⟩ := List.getElem?_eq_some_iff.mp hi'
  obtain ⟨hjl, rfl⟩ := List.getElem?_eq_some_iff.mp hj
  exact List.pairwise_iff_getElem.mp h.apart i j hil hjl hij

/-- **One range contains a point.** -/
theorem Ordered.eq_of_mem (h : Ordered lo hi l) {x : α} {i j : ℕ} {r q : ρ}
    (hi' : l[i]? = some r) (hj : l[j]? = some q) (hr : lo r ≤ x ∧ x < hi r)
    (hq : lo q ≤ x ∧ x < hi q) : i = j := by
  rcases lt_trichotomy i j with hij | rfl | hij
  · exact absurd (lt_of_lt_of_le hr.2 (h.hi_le_lo hij hi' hj)) (not_lt.mpr hq.1)
  · rfl
  · exact absurd (lt_of_lt_of_le hq.2 (h.hi_le_lo hij hj hi')) (not_lt.mpr hr.1)

/-- Whether the range at an index ends at or below `x`. -/
def endsBelow (hi : ρ → α) (l : List ρ) (x : α) (i : ℕ) : Bool :=
  match l[i]? with
  | some r => hi r ≤ x
  | none => false

theorem endsBelow_iff {x : α} {i : ℕ} :
    endsBelow hi l x i = true ↔ ∃ r, l[i]? = some r ∧ hi r ≤ x := by
  unfold endsBelow
  cases l[i]? <;> simp

/-- **The first range that ends above a point**, by bisection. -/
theorem Ordered.lower_spec (h : Ordered lo hi l) (x : α) {n : ℕ}
    (hn : n = bisect (endsBelow hi l x) l.length 0 l.length) :
    n ≤ l.length ∧ (∀ i r, i < n → l[i]? = some r → hi r ≤ x) ∧
      ∀ i r, n ≤ i → l[i]? = some r → x < hi r := by
  have hmono : ∀ i j, i ≤ j → j < l.length → endsBelow hi l x j → endsBelow hi l x i := by
    intro i j hij hj hx
    obtain ⟨q, hq, hle⟩ := endsBelow_iff.mp hx
    rcases Nat.lt_or_eq_of_le hij with hlt | rfl
    · have hil : i < l.length := lt_trans hlt hj
      refine endsBelow_iff.mpr ⟨l[i], List.getElem?_eq_getElem hil, ?_⟩
      have hapart := h.hi_le_lo hlt (List.getElem?_eq_getElem hil) hq
      exact hapart.trans ((h.nonempty q (List.mem_of_getElem? hq)).le.trans hle)
    · exact hx
  obtain ⟨hle, hbelow, habove⟩ := bisect_spec hmono (Nat.zero_le l.length) le_rfl
    (Nat.sub_le l.length 0) nofun (fun i hi' hin => absurd hin (not_lt.mpr hi'))
  rw [← hn] at hle hbelow habove
  refine ⟨hle, fun i r hi' hr => ?_, fun i r hi' hr => ?_⟩
  · obtain ⟨q, hq, hle⟩ := endsBelow_iff.mp (hbelow i hi')
    rw [hr] at hq
    cases hq
    exact hle
  · have hin : i < l.length := (List.getElem?_eq_some_iff.mp hr).1
    by_contra hx
    exact habove i hi' hin (endsBelow_iff.mpr ⟨r, hr, not_lt.mp hx⟩)

/-- **Insertion** of a range apart from all others, where bisection for its beginning points. -/
theorem Ordered.insert (h : Ordered lo hi l) {x : ρ} (hx : lo x < hi x)
    (hapart : ∀ r ∈ l, hi r ≤ lo x ∨ hi x ≤ lo r) {n : ℕ}
    (hn : n = bisect (endsBelow hi l (lo x)) l.length 0 l.length) :
    Ordered lo hi (l.take n ++ x :: l.drop n) := by
  obtain ⟨-, hbelow, habove⟩ := h.lower_spec (lo x) hn
  have htake : ∀ r ∈ l.take n, hi r ≤ lo x := by
    intro r hr
    obtain ⟨i, hi', rfl⟩ := List.mem_take_iff_getElem.mp hr
    exact hbelow i _ (by omega) (List.getElem?_eq_getElem (by omega))
  have hdrop : ∀ r ∈ l.drop n, hi x ≤ lo r := by
    intro r hr
    obtain ⟨i, hi', rfl⟩ := List.mem_drop_iff_getElem.mp hr
    have hin : n + i < l.length := by omega
    have habove' := habove (n + i) _ (Nat.le_add_right n i) (List.getElem?_eq_getElem hin)
    rcases hapart _ (List.getElem_mem hin) with hle | hle
    · exact absurd hle (not_le.mpr habove')
    · exact hle
  constructor
  · intro r hr
    rcases List.mem_append.mp hr with hr | hr
    · exact h.nonempty r (List.mem_of_mem_take hr)
    · rcases List.mem_cons.mp hr with rfl | hr
      · exact hx
      · exact h.nonempty r (List.mem_of_mem_drop hr)
  · rw [List.pairwise_append, List.pairwise_cons]
    refine ⟨h.apart.sublist (List.take_sublist n l),
      ⟨hdrop, h.apart.sublist (List.drop_sublist n l)⟩,
      fun r hr q hq => ?_⟩
    rcases List.mem_cons.mp hq with rfl | hq
    · exact htake r hr
    · exact (htake r hr).trans (hx.le.trans (hdrop q hq))

theorem mem_insertAt {x r : ρ} {n : ℕ} : r ∈ l.take n ++ x :: l.drop n ↔ r = x ∨ r ∈ l := by
  have hsplit : r ∈ l ↔ r ∈ l.take n ∨ r ∈ l.drop n := by
    rw [← List.mem_append, List.take_append_drop]
  rw [List.mem_append, List.mem_cons, hsplit]
  constructor
  · rintro (hr | rfl | hr)
    · exact Or.inr (Or.inl hr)
    · exact Or.inl rfl
    · exact Or.inr (Or.inr hr)
  · rintro (rfl | hr | hr)
    · exact Or.inr (Or.inl rfl)
    · exact Or.inl hr
    · exact Or.inr (Or.inr hr)

end Ranges
