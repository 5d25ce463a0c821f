import Mathlib.Data.List.Basic
import Mathlib.Data.List.Nodup
import Mathlib.Logic.Function.Basic

/-!
# Lists that are linked both ways

The nodes of a list point to the one after them and to the one before, and the ends point to
nothing. A list is written here from the node that `prev` leads away from: `prev` of a node is the
next in the list. What a program does to such a list writes few pointers, and says which list there
is afterwards.

## Main definitions

* `Links ptr l e`: each node of `l` points to the next, and the last to `e`
* `Doubly prev next l`: `l` is linked both ways

## Main results

* `Doubly.append`: a node is put at the end
* `Doubly.unlink`: a node is taken out, wherever it is
* `Doubly.cut`: a list is cut in two
-/

namespace Chaining

variable {ι : Type*}

/-- Each node of the list points to the next, and the last to `e`. -/
def Links (ptr : ι → Option ι) : List ι → Option ι → Prop
  | [], _ => True
  | a :: l, e => ptr a = l.head?.or e ∧ Links ptr l e

/-- A list that is linked both ways, and ends on both sides. -/
structure Doubly (prev next : ι → Option ι) (l : List ι) : Prop where
  forth : Links prev l none
  back : Links next l.reverse none

/-! ## One direction -/

section Links

variable {ptr ptr' : ι → Option ι} {l m : List ι} {e : Option ι}

theorem links_append : Links ptr (l ++ m) e ↔ Links ptr l (m.head?.or e) ∧ Links ptr m e := by
  induction l with
  | nil => simp [Links]
  | cons a l ih => simp only [List.cons_append, Links, ih, List.head?_append, Option.or_assoc,
      and_assoc]

/-- Only the pointers of the list's own nodes matter. -/
theorem Links.congr (h : ∀ a ∈ l, ptr' a = ptr a) (hl : Links ptr l e) : Links ptr' l e := by
  induction l with
  | nil => trivial
  | cons a l ih =>
    refine ⟨(h a List.mem_cons_self).trans hl.1, ih (fun b hb => ?_) hl.2⟩
    exact h b (List.mem_cons_of_mem a hb)

theorem Links.update [DecidableEq ι] {a : ι} {v : Option ι} (ha : a ∉ l) (hl : Links ptr l e) :
    Links (Function.update ptr a v) l e :=
  hl.congr fun b hb => Function.update_of_ne (fun h : b = a => ha (h ▸ hb)) ..

/-- What a node points to. -/
theorem Links.of_mem {a : ι} (hl : Links ptr (l ++ a :: m) e) : ptr a = m.head?.or e :=
  (links_append.mp hl).2.1

/-- The last node is made to point elsewhere. -/
theorem Links.aim [DecidableEq ι] {a : ι} {v : Option ι} (hl : Links ptr (l ++ [a]) e)
    (ha : a ∉ l) : Links (Function.update ptr a v) (l ++ [a]) v := by
  obtain ⟨hfirst, -⟩ := links_append.mp hl
  refine links_append.mpr ⟨hfirst.update ha, ?_, trivial⟩
  simp

end Links

/-! ## Both directions -/

section Doubly

variable {prev next prev' next' : ι → Option ι} {l m : List ι} {a x : ι}

theorem Doubly.congr (h : ∀ a ∈ l, prev' a = prev a) (h' : ∀ a ∈ l, next' a = next a)
    (hl : Doubly prev next l) : Doubly prev' next' l :=
  ⟨hl.forth.congr h, hl.back.congr fun b hb => h' b (List.mem_reverse.mp hb)⟩

/-- Where a node's pointers lead. -/
theorem Doubly.prev_eq (hl : Doubly prev next (l ++ x :: m)) : prev x = m.head? := by
  rw [hl.forth.of_mem, Option.or_none]

theorem Doubly.next_eq (hl : Doubly prev next (l ++ x :: m)) : next x = l.getLast? := by
  have hback := hl.back
  rw [List.reverse_append, List.reverse_cons, List.append_assoc, List.singleton_append] at hback
  rw [hback.of_mem, Option.or_none, List.head?_reverse]

/-- A node's pointers lead to nodes of the list. -/
theorem Doubly.mem_of_prev (hl : Doubly prev next l) (hx : x ∈ l) (h : prev x = some a) :
    a ∈ l := by
  obtain ⟨s, t, rfl⟩ := List.append_of_mem hx
  rw [hl.prev_eq] at h
  exact List.mem_append_right s (List.mem_cons_of_mem x (List.mem_of_mem_head? h))

theorem Doubly.mem_of_next (hl : Doubly prev next l) (hx : x ∈ l) (h : next x = some a) :
    a ∈ l := by
  obtain ⟨s, t, rfl⟩ := List.append_of_mem hx
  rw [hl.next_eq] at h
  exact List.mem_append_left _ (List.mem_of_mem_getLast? h)

variable [DecidableEq ι]

/-- The pointer of a node, where there is one, is made to lead to `v`. -/
def aimed (ptr : ι → Option ι) (at_ : Option ι) (v : Option ι) : ι → Option ι :=
  match at_ with
  | none => ptr
  | some a => Function.update ptr a v

@[simp] theorem aimed_none (ptr : ι → Option ι) (v : Option ι) : aimed ptr none v = ptr := rfl

@[simp] theorem aimed_some (ptr : ι → Option ι) (v : Option ι) : aimed ptr (some a) v a = v :=
  Function.update_self ..

theorem aimed_of_ne {ptr : ι → Option ι} {at_ v : Option ι} (h : at_ ≠ some x) :
    aimed ptr at_ v x = ptr x := by
  cases at_ with
  | none => rfl
  | some a => exact Function.update_of_ne (fun heq => h (congrArg some heq.symm)) ..

theorem Links.aside {ptr : ι → Option ι} {at_ e v : Option ι} (h : ∀ a ∈ at_, a ∉ l)
    (hl : Links ptr l e) : Links (aimed ptr at_ v) l e :=
  hl.congr fun b hb => aimed_of_ne fun hat => h b hat hb

/-- The last node of a segment, if there is one, is made to point elsewhere. -/
theorem Links.aim_getLast {ptr : ι → Option ι} {e v : Option ι} (hnodup : l.Nodup)
    (hl : Links ptr l e) : Links (aimed ptr l.getLast? v) l v := by
  rcases List.eq_nil_or_concat l with rfl | ⟨s, a, rfl⟩
  · trivial
  · rw [List.concat_eq_append] at hnodup hl ⊢
    rw [List.getLast?_concat]
    exact hl.aim fun h => (List.nodup_append.mp hnodup).2.2 a h a (List.mem_singleton_self a) rfl

/-- **A node is put at the end.** -/
theorem Doubly.append (hl : Doubly prev next l) (hnodup : (l ++ [x]).Nodup) :
    Doubly (aimed (Function.update prev x none) l.getLast? (some x))
      (Function.update next x l.getLast?) (l ++ [x]) := by
  have hx : x ∉ l :=
    fun h => (List.nodup_append.mp hnodup).2.2 x h x (List.mem_singleton_self x) rfl
  constructor
  · refine links_append.mpr ⟨?_, ?_, trivial⟩
    · exact (hl.forth.update hx).aim_getLast (List.nodup_append.mp hnodup).1
    · rw [aimed_of_ne fun h => hx (List.mem_of_mem_getLast? h), Function.update_self]
      rfl
  · rw [List.reverse_append, List.reverse_singleton, List.singleton_append]
    refine ⟨?_, hl.back.update fun h => hx (List.mem_reverse.mp h)⟩
    rw [Function.update_self, List.head?_reverse, Option.or_none]

/-- A node between two segments is passed over in one direction. -/
theorem Links.skip {ptr : ι → Option ι} {e : Option ι} (hnodup : (l ++ x :: m).Nodup)
    (hl : Links ptr (l ++ x :: m) e) : Links (aimed ptr l.getLast? (ptr x)) (l ++ m) e := by
  obtain ⟨hbefore, hx, hafter⟩ := links_append.mp hl
  obtain ⟨hnodup', -, hapart⟩ := List.nodup_append.mp hnodup
  refine links_append.mpr ⟨?_, ?_⟩
  · rw [hx]
    exact hbefore.aim_getLast hnodup'
  · refine hafter.congr fun b hb => aimed_of_ne fun h => ?_
    exact hapart b (List.mem_of_mem_getLast? h) b (List.mem_cons_of_mem x hb) rfl

/-- **A node is taken out**, wherever it is: its neighbours, where it has them, point past it. -/
theorem Doubly.unlink (hl : Doubly prev next (l ++ x :: m)) (hnodup : (l ++ x :: m).Nodup) :
    Doubly (aimed prev (next x) (prev x)) (aimed next (prev x) (next x)) (l ++ m) := by
  have hprev := hl.prev_eq
  have hnext := hl.next_eq
  constructor
  · rw [hnext]
    exact hl.forth.skip hnodup
  · have hback := hl.back
    have hnodup' : (m.reverse ++ x :: l.reverse).Nodup := by
      have := List.nodup_reverse.mpr hnodup
      rwa [List.reverse_append, List.reverse_cons, List.append_assoc, List.singleton_append] at this
    rw [List.reverse_append, List.reverse_cons, List.append_assoc, List.singleton_append] at hback
    rw [List.reverse_append, hprev, ← List.getLast?_reverse]
    exact hback.skip hnodup'

/-- A node is the newest just where it points to none that is newer, and then the one before it
becomes the newest. -/
theorem Doubly.unlink_last (hl : Doubly prev next (l ++ x :: m)) (hnodup : (l ++ x :: m).Nodup) :
    (if (l ++ x :: m).getLast? = some x then next x else (l ++ x :: m).getLast?) =
        (l ++ m).getLast? ∧
      (if (l ++ x :: m).getLast? = some x then next else aimed next (prev x) (next x)) =
        aimed next (prev x) (next x) := by
  obtain ⟨-, hnodup₂, -⟩ := List.nodup_append.mp hnodup
  rcases List.eq_nil_or_concat m with rfl | ⟨m, a, rfl⟩
  · rw [List.getLast?_concat, if_pos rfl, if_pos rfl, hl.next_eq, hl.prev_eq, List.append_nil]
    exact ⟨rfl, rfl⟩
  · rw [List.concat_eq_append] at hnodup₂ ⊢
    have hne : a ≠ x := fun heq => (List.nodup_cons.mp hnodup₂).1 (by simp [heq])
    rw [← List.cons_append, ← List.append_assoc, List.getLast?_concat, ← List.append_assoc,
      List.getLast?_concat, if_neg (fun heq => hne (Option.some.inj heq)),
      if_neg (fun heq => hne (Option.some.inj heq))]
    exact ⟨rfl, rfl⟩

theorem Doubly.unlink_first (hl : Doubly prev next (l ++ x :: m)) (hnodup : (l ++ x :: m).Nodup) :
    (if (l ++ x :: m).head? = some x then prev x else (l ++ x :: m).head?) = (l ++ m).head? ∧
      (if (l ++ x :: m).head? = some x then prev else aimed prev (next x) (prev x)) =
        aimed prev (next x) (prev x) := by
  cases l with
  | nil =>
    rw [List.nil_append, List.head?_cons, if_pos rfl, if_pos rfl, hl.prev_eq, hl.next_eq]
    exact ⟨rfl, rfl⟩
  | cons a l =>
    have hne : a ≠ x := fun heq => (List.nodup_cons.mp hnodup).1 (by simp [heq])
    rw [List.cons_append, List.head?_cons, if_neg (fun heq => hne (Option.some.inj heq)),
      if_neg (fun heq => hne (Option.some.inj heq))]
    exact ⟨rfl, rfl⟩

/-- **A list is cut in two**: the two nodes at the cut point to nothing. -/
theorem Doubly.cut (hl : Doubly prev next (l ++ m)) (hnodup : (l ++ m).Nodup) :
    Doubly (aimed prev l.getLast? none) (aimed next m.head? none) l ∧
      Doubly (aimed prev l.getLast? none) (aimed next m.head? none) m := by
  obtain ⟨hnodup₁, hnodup₂, hapart⟩ := List.nodup_append.mp hnodup
  obtain ⟨hforth₁, hforth₂⟩ := links_append.mp hl.forth
  have hback := hl.back
  rw [List.reverse_append] at hback
  obtain ⟨hback₂, hback₁⟩ := links_append.mp hback
  refine ⟨⟨hforth₁.aim_getLast hnodup₁, ?_⟩, ⟨?_, ?_⟩⟩
  · refine hback₁.congr fun b hb => aimed_of_ne fun h => ?_
    exact hapart b (List.mem_reverse.mp hb) b (List.mem_of_mem_head? h) rfl
  · refine hforth₂.congr fun b hb => aimed_of_ne fun h => ?_
    exact hapart b (List.mem_of_mem_getLast? h) b hb rfl
  · rw [← List.getLast?_reverse]
    exact hback₂.aim_getLast (List.nodup_reverse.mpr hnodup₂)

end Doubly

end Chaining
