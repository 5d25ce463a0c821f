import Mathlib.Data.List.Basic
import Mathlib.Data.List.DropRight
import Mathlib.Data.List.Infix

/-!
# Separated names and their lexical reduction

A name is a list of symbols cut by a separator into components. Two components are special:
`here` stands for the place reached so far and `up` for the one above it. Reading the
components from left to right over a stack gives the lexical reduction of the name: `here` is
skipped, `up` pops, and any other component is pushed. The stack is written back by joining it
with the separator.

## Main definitions

* `segments sep l`: the non-empty components of `l`, in order
* `joined sep cs`: the components joined by single separators
* `reduce here up cs`: the stack left by reading `cs`
* `Ascends here up cs`: reading `cs`, the ascents at some point outnumber the descents
* `NormalName sep here up l`: `l` is not empty and has no empty or special component

## Main results

* `segments_append`, `segments_joined`: components of a concatenation and of a joined stack
* `rdropWhile_joined`: dropping the last component of a joined stack
* `reduce_ordinary`: a stack holds only ordinary components
* `reduce_reduce_append`: reading goes on from a stack as from what left it
* `exists_suffix_of_boundary`: what follows a cut at a component boundary is again joined
* `normalName_joined`: a joined stack of ordinary components is a normal name
-/

namespace Lexical

variable {α : Type*}

section Segments

variable [DecidableEq α] {sep : α}

/-- The non-empty components of `l`, in order. -/
def segments (sep : α) (l : List α) : List (List α) := (l.splitOn sep).filter (· ≠ [])

/-- A component: not empty, and without a separator. -/
def Component (sep : α) (c : List α) : Prop := c ≠ [] ∧ sep ∉ c

instance (sep : α) (c : List α) : Decidable (Component sep c) :=
  inferInstanceAs (Decidable (_ ∧ _))

@[simp] theorem segments_nil (sep : α) : segments sep [] = [] := by simp [segments]

theorem not_mem_of_mem_splitOn {l c : List α} (h : c ∈ l.splitOn sep) : sep ∉ c := by
  induction l generalizing c with
  | nil => simp_all
  | cons a l ih =>
    rw [List.splitOn_cons_eq_if_modifyHead] at h
    split_ifs at h with ha
    · rcases List.mem_cons.mp h with rfl | h
      · simp
      · exact ih h
    · cases hl : l.splitOn sep with
      | nil => exact absurd hl (List.splitOn_ne_nil _ _)
      | cons d ds =>
        rw [hl] at h ih
        rcases List.mem_cons.mp h with rfl | h
        · simp only [List.mem_cons, not_or]
          exact ⟨fun he => ha (by simp [he]), ih (by simp)⟩
        · exact ih (List.mem_cons_of_mem _ h)

theorem subset_of_mem_splitOn {l c : List α} (h : c ∈ l.splitOn sep) : c ⊆ l := by
  induction l generalizing c with
  | nil => simp_all
  | cons a l ih =>
    rw [List.splitOn_cons_eq_if_modifyHead] at h
    split_ifs at h
    · rcases List.mem_cons.mp h with rfl | h
      · simp
      · exact List.subset_cons_of_subset _ (ih h)
    · cases hl : l.splitOn sep with
      | nil => exact absurd hl (List.splitOn_ne_nil _ _)
      | cons d ds =>
        rw [hl] at h ih
        rcases List.mem_cons.mp h with rfl | h
        · exact List.cons_subset_cons _ (ih (by simp))
        · exact List.subset_cons_of_subset _ (ih (List.mem_cons_of_mem _ h))

theorem subset_of_mem_segments {l c : List α} (h : c ∈ segments sep l) : c ⊆ l :=
  subset_of_mem_splitOn (List.mem_filter.mp h).1

theorem component_of_mem_segments {l c : List α} (h : c ∈ segments sep l) : Component sep c := by
  obtain ⟨hc, hne⟩ := List.mem_filter.mp h
  exact ⟨by simpa using hne, not_mem_of_mem_splitOn hc⟩

theorem segments_append_cons (a b : List α) :
    segments sep (a ++ sep :: b) = segments sep a ++ segments sep b := by
  simp [segments, List.splitOn_append_cons_self]

@[simp] theorem segments_cons_sep (l : List α) : segments sep (sep :: l) = segments sep l := by
  simpa using @segments_append_cons _ _ sep [] l

/-- The components of a concatenation whose left part ends at a separator. -/
theorem segments_append {a : List α} (b : List α) (ha : a = [] ∨ a.getLast? = some sep) :
    segments sep (a ++ b) = segments sep a ++ segments sep b := by
  rcases ha with rfl | ha
  · simp
  · obtain ⟨a', rfl⟩ := List.getLast?_eq_some_iff.mp ha
    rw [List.append_assoc, List.singleton_append, segments_append_cons, segments_append_cons]
    simp

theorem segments_component {c : List α} (hc : Component sep c) : segments sep c = [c] := by
  rw [segments, List.splitOn_eq_singleton hc.2]
  simp [hc.1]

theorem segments_component_cons {c : List α} (hc : Component sep c) (l : List α) :
    segments sep (c ++ sep :: l) = c :: segments sep l := by
  rw [segments_append_cons, segments_component hc, List.singleton_append]

theorem segments_dropWhile (l : List α) :
    segments sep (l.dropWhile (· = sep)) = segments sep l := by
  induction l with
  | nil => simp
  | cons a l ih =>
    by_cases ha : a = sep
    · subst ha
      simp [ih]
    · simp [ha]

/-- One turn of a scan: skip the separators, read up to the next one. -/
theorem segments_scan {l : List α} (hl : l.dropWhile (· = sep) ≠ []) :
    Component sep ((l.dropWhile (· = sep)).takeWhile (· ≠ sep)) ∧
      segments sep l = (l.dropWhile (· = sep)).takeWhile (· ≠ sep) ::
        segments sep ((l.dropWhile (· = sep)).dropWhile (· ≠ sep)) := by
  rw [← @segments_dropWhile _ _ sep l]
  -- behind the separators skipped stands a character of a component
  have hhead : ∀ x ∈ (l.dropWhile (· = sep)).head?, x ≠ sep := by
    intro x hx
    have := List.head?_dropWhile_not (fun a => decide (a = sep)) l
    rw [Option.mem_def.mp hx] at this
    simpa using this
  generalize l.dropWhile (· = sep) = m at hl hhead
  have hc : Component sep (m.takeWhile (· ≠ sep)) := by
    refine ⟨?_, fun hmem => by simpa using List.mem_takeWhile_imp hmem⟩
    cases m with
    | nil => exact absurd rfl hl
    | cons a m => simp [hhead a (by simp)]
  refine ⟨hc, ?_⟩
  conv_lhs => rw [← List.takeWhile_append_dropWhile (p := (· ≠ sep)) (l := m)]
  cases hd : m.dropWhile (· ≠ sep) with
  | nil => rw [List.append_nil, segments_component hc, segments_nil]
  | cons a t =>
    have ha : a = sep := by
      have := List.head?_dropWhile_not (fun x => decide (x ≠ sep)) m
      rw [hd] at this
      simpa using this
    subst ha
    rw [segments_component_cons hc, segments_cons_sep]

/-- The last component of a name, behind the separator before it and before those that trail. -/
theorem segments_last (l : List α) :
    segments sep l = [] ∧ l = List.replicate l.length sep ∨
      ∃ p c k, l = p ++ c ++ List.replicate k sep ∧ (p = [] ∨ p.getLast? = some sep) ∧
        Component sep c ∧ segments sep l = segments sep p ++ [c] := by
  -- Built up from its end: a separator trails, and any other character extends the last component.
  induction l using List.reverseRecOn with
  | nil => simp
  | append_singleton l a ih =>
    by_cases ha : a = sep
    · subst ha
      have hseg : segments a (l ++ [a]) = segments a l := by
        simpa using @segments_append_cons _ _ a l []
      rw [hseg]
      rcases ih with ⟨hnil, hl⟩ | ⟨p, c, k, hl, hp, hc, hs⟩
      · refine Or.inl ⟨hnil, ?_⟩
        rw [List.length_append, List.length_singleton, List.replicate_succ', ← hl]
      · refine Or.inr ⟨p, c, k + 1, ?_, hp, hc, hs⟩
        rw [hl, List.replicate_succ']
        simp
    · have hone : Component sep [a] := ⟨by simp, by simpa using Ne.symm ha⟩
      rcases ih with ⟨hnil, hl⟩ | ⟨p, c, k, hl, hp, hc, hs⟩
      · -- nothing but separators stands before it
        have hend : l = [] ∨ l.getLast? = some sep := by
          rw [hl]
          cases l.length with
          | zero => simp
          | succ n => exact Or.inr (by rw [List.replicate_succ']; simp)
        refine Or.inr ⟨l, [a], 0, by simp, hend, hone, ?_⟩
        rw [segments_append _ hend, segments_component hone]
      · cases k with
        | zero =>
          have hca : Component sep (c ++ [a]) :=
            ⟨by simp, by simpa [hc.2] using Ne.symm ha⟩
          refine Or.inr ⟨p, c ++ [a], 0, by simp [hl], hp, hca, ?_⟩
          rw [hl, List.replicate_zero, List.append_nil, List.append_assoc, segments_append _ hp,
            segments_component hca]
        | succ k =>
          have hend : l.getLast? = some sep := by
            rw [hl, List.replicate_succ', ← List.append_assoc]
            simp
          refine Or.inr ⟨l, [a], 0, by simp, Or.inr hend, hone, ?_⟩
          rw [segments_append _ (Or.inr hend), segments_component hone]

end Segments

section Joined

variable {sep : α}

/-- The components joined by single separators. -/
def joined (sep : α) (cs : List (List α)) : List α := [sep].intercalate cs

@[simp] theorem joined_nil (sep : α) : joined sep [] = [] := rfl

@[simp] theorem joined_singleton (c : List α) : joined sep [c] = c := by simp [joined]

theorem joined_cons {c : List α} {cs : List (List α)} (h : cs ≠ []) :
    joined sep (c :: cs) = c ++ sep :: joined sep cs := by
  simp [joined, List.intercalate_cons_of_ne_nil h]

theorem joined_concat {cs : List (List α)} (c : List α) (h : cs ≠ []) :
    joined sep (cs ++ [c]) = joined sep cs ++ sep :: c := by
  induction cs with
  | nil => exact absurd rfl h
  | cons d cs ih =>
    by_cases hcs : cs = []
    · subst hcs
      simp [@joined_cons _ sep d [c] (by simp)]
    · rw [List.cons_append, joined_cons (by simp), ih hcs, joined_cons hcs]
      simp

theorem joined_eq_nil_iff {cs : List (List α)} (h : ∀ c ∈ cs, Component sep c) :
    joined sep cs = [] ↔ cs = [] := by
  cases cs with
  | nil => simp
  | cons c cs =>
    have hc := (h c (by simp)).1
    by_cases hcs : cs = []
    · subst hcs
      simp [hc]
    · simp [joined_cons hcs]

theorem segments_joined [DecidableEq α] {cs : List (List α)} (h : ∀ c ∈ cs, Component sep c) :
    segments sep (joined sep cs) = cs := by
  by_cases hcs : cs = []
  · subst hcs
    simp
  · rw [segments, joined, List.splitOn_intercalate sep (fun c hc => (h c hc).2) hcs]
    exact List.filter_eq_self.mpr fun c hc => by simpa using (h c hc).1

theorem mem_joined {x : α} {cs : List (List α)} (h : x ∈ joined sep cs) :
    x = sep ∨ ∃ c ∈ cs, x ∈ c := by
  induction cs with
  | nil => simp at h
  | cons c cs ih =>
    by_cases hcs : cs = []
    · subst hcs
      exact Or.inr ⟨c, by simp, by simpa using h⟩
    · rw [joined_cons hcs, List.mem_append, List.mem_cons] at h
      rcases h with h | h | h
      · exact Or.inr ⟨c, by simp, h⟩
      · exact Or.inl h
      · exact (ih h).imp_right fun ⟨d, hd, hx⟩ => ⟨d, by simp [hd], hx⟩

/-- A joined stack begins with a symbol of its first component. -/
theorem head?_joined_ne {cs : List (List α)} (h : ∀ c ∈ cs, Component sep c) :
    (joined sep cs).head? ≠ some sep := by
  cases cs with
  | nil => simp
  | cons c cs =>
    obtain ⟨hne, hsep⟩ := h c (by simp)
    obtain ⟨a, c, rfl⟩ := List.exists_cons_of_ne_nil hne
    have ha : a ≠ sep := fun he => hsep (by simp [he])
    by_cases hcs : cs = []
    · subst hcs
      simpa using ha
    · simpa [joined_cons hcs] using ha

/-- A joined stack ends with a symbol of its last component. -/
theorem getLast?_joined_ne {cs : List (List α)} (h : ∀ c ∈ cs, Component sep c) :
    (joined sep cs).getLast? ≠ some sep := by
  rcases List.eq_nil_or_concat cs with rfl | ⟨cs, c, rfl⟩
  · simp
  · rw [List.concat_eq_append] at h ⊢
    obtain ⟨hne, hsep⟩ := h c (by simp)
    have hlast : c.getLast? ≠ some sep := fun he => hsep (List.mem_of_getLast? he)
    by_cases hcs : cs = []
    · subst hcs
      simpa using hlast
    · rw [joined_concat c hcs, List.getLast?_append_of_ne_nil _ (by simp)]
      rwa [List.getLast?_cons_of_ne_nil hne]

/-- The first component of a joined stack, and what follows it. -/
theorem span_joined [DecidableEq α] {c : List α} (cs : List (List α)) (hc : Component sep c) :
    (joined sep (c :: cs)).takeWhile (· ≠ sep) = c ∧
      (joined sep (c :: cs)).dropWhile (· ≠ sep) =
        if cs = [] then [] else sep :: joined sep cs := by
  have hall : ∀ x ∈ c, decide (x ≠ sep) = true := fun x hx => by
    simpa using fun he : x = sep => hc.2 (he ▸ hx)
  by_cases hcs : cs = []
  · subst hcs
    rw [joined_singleton, if_pos rfl]
    exact ⟨List.takeWhile_eq_self_iff.mpr hall, List.dropWhile_eq_nil_iff.mpr hall⟩
  · rw [joined_cons hcs, if_neg hcs, List.takeWhile_append_of_pos hall,
      List.dropWhile_append_of_pos hall]
    simp

/-- Dropping the last component of a joined stack, and the separator before it. -/
theorem rdropWhile_joined [DecidableEq α] {cs : List (List α)} (h : ∀ c ∈ cs, Component sep c) :
    ((joined sep cs).rdropWhile (· ≠ sep)).dropLast = joined sep cs.dropLast := by
  rcases List.eq_nil_or_concat cs with rfl | ⟨cs, c, rfl⟩
  · simp
  · rw [List.concat_eq_append] at h ⊢
    have hc : ∀ x ∈ c, decide (x ≠ sep) = true := by
      intro x hx
      simpa using fun he : x = sep => (h c (by simp)).2 (he ▸ hx)
    rw [List.dropLast_concat]
    by_cases hcs : cs = []
    · subst hcs
      rw [List.nil_append, joined_singleton, List.rdropWhile_eq_nil_iff.mpr hc]
      rfl
    · rw [joined_concat c hcs]
      -- the last component goes character by character, up to the separator before it
      have hdrop : ∀ (d : List α), (∀ x ∈ d, decide (x ≠ sep) = true) →
          (joined sep cs ++ sep :: d).rdropWhile (· ≠ sep) = joined sep cs ++ [sep] := by
        intro d
        induction d using List.reverseRecOn with
        | nil =>
          intro _
          exact List.rdropWhile_concat_neg (p := (· ≠ sep)) _ sep (by simp)
        | append_singleton d x ih =>
          intro hd
          rw [← List.cons_append, ← List.append_assoc,
            List.rdropWhile_concat_pos (p := (· ≠ sep)) _ x (hd x (by simp))]
          exact ih fun y hy => hd y (by simp [hy])
      rw [hdrop c hc, List.dropLast_concat]

end Joined

section Reduction

variable [DecidableEq α] (here up : List α)

/-- A component that is pushed. -/
def Ordinary (c : List α) : Prop := c ≠ here ∧ c ≠ up

instance (c : List α) : Decidable (Ordinary here up c) := inferInstanceAs (Decidable (_ ∧ _))

/-- One component read over the stack. -/
def reduceStep (stack : List (List α)) (c : List α) : List (List α) :=
  if c = here then stack else if c = up then stack.dropLast else stack ++ [c]

/-- The stack left by reading the components from left to right; a pop of the empty stack
does nothing. -/
def reduce (cs : List (List α)) : List (List α) := cs.foldl (reduceStep here up) []

/-- Reading the components from left to right, the ascents of some prefix outnumber the
ordinary components before them. -/
def Ascends (cs : List (List α)) : Prop :=
  ∃ k ≤ cs.length, (cs.take k).countP (fun c => Ordinary here up c) < (cs.take k).count up

instance (cs : List (List α)) : Decidable (Ascends here up cs) :=
  inferInstanceAs (Decidable (∃ k ≤ cs.length, _))

variable {here up}

@[simp] theorem reduce_nil : reduce here up [] = [] := rfl

theorem reduce_concat (cs : List (List α)) (c : List α) :
    reduce here up (cs ++ [c]) = reduceStep here up (reduce here up cs) c := by
  simp [reduce]

/-- A stack holds only ordinary components of what was read. -/
theorem reduce_ordinary {cs : List (List α)} {c : List α} (hc : c ∈ reduce here up cs) :
    c ∈ cs ∧ Ordinary here up c := by
  induction cs using List.reverseRecOn with
  | nil => simp at hc
  | append_singleton cs d ih =>
    rw [reduce_concat, reduceStep] at hc
    split_ifs at hc with h₁ h₂
    · exact ⟨by simp [(ih hc).1], (ih hc).2⟩
    · have := ih (List.dropLast_subset _ hc)
      exact ⟨by simp [this.1], this.2⟩
    · rcases List.mem_append.mp hc with hc | hc
      · exact ⟨by simp [(ih hc).1], (ih hc).2⟩
      · obtain rfl := List.mem_singleton.mp hc
        exact ⟨by simp, h₁, h₂⟩

/-- Ordinary components reduce to themselves. -/
theorem reduce_eq_self {cs : List (List α)} (h : ∀ c ∈ cs, Ordinary here up c) :
    reduce here up cs = cs := by
  induction cs using List.reverseRecOn with
  | nil => rfl
  | append_singleton cs c ih =>
    rw [reduce_concat, ih fun d hd => h d (by simp [hd]), reduceStep,
      if_neg (h c (by simp)).1, if_neg (h c (by simp)).2]

/-- What was read may be replaced by the stack it left. -/
theorem reduce_reduce_append (cs ds : List (List α)) :
    reduce here up (reduce here up cs ++ ds) = reduce here up (cs ++ ds) := by
  have hself : reduce here up (reduce here up cs) = reduce here up cs :=
    reduce_eq_self fun _ hc => (reduce_ordinary hc).2
  induction ds using List.reverseRecOn with
  | nil => simpa using hself
  | append_singleton ds c ih =>
    rw [← List.append_assoc, ← List.append_assoc, reduce_concat, reduce_concat, ih]

end Reduction

section Normal

variable (sep : α) (here up : List α)

/-- Every component is ordinary. -/
def Stack (cs : List (List α)) : Prop := ∀ c ∈ cs, Component sep c ∧ Ordinary here up c

variable {sep here up}

theorem Stack.component {cs : List (List α)} (h : Stack sep here up cs) :
    ∀ c ∈ cs, Component sep c := fun c hc => (h c hc).1

theorem Stack.of_suffix {cs ds : List (List α)} (h : Stack sep here up cs) (hd : ds <:+ cs) :
    Stack sep here up ds := fun c hc => h c (hd.subset hc)

variable [DecidableEq α]

variable (sep here up) in
/-- A name that is not empty and has no empty or special component. -/
def NormalName (l : List α) : Prop :=
  l ≠ [] ∧ ∀ c ∈ l.splitOn sep, c ≠ [] ∧ Ordinary here up c

instance (l : List α) : Decidable (NormalName sep here up l) := inferInstanceAs (Decidable (_ ∧ _))

theorem stack_reduce {cs : List (List α)} (h : ∀ c ∈ cs, Component sep c) :
    Stack sep here up (reduce here up cs) := fun c hc =>
  ⟨h c (reduce_ordinary hc).1, (reduce_ordinary hc).2⟩

/-- A joined stack of ordinary components is a normal name. -/
theorem normalName_joined {cs : List (List α)} (h : Stack sep here up cs) (hne : cs ≠ []) :
    NormalName sep here up (joined sep cs) := by
  refine ⟨fun he => hne ((joined_eq_nil_iff h.component).mp he), ?_⟩
  rw [joined, List.splitOn_intercalate sep (fun c hc => (h c hc).1.2) hne]
  exact fun c hc => ⟨(h c hc).1.1, (h c hc).2⟩

/-- A cut of a name at a boundary between components: before a separator, after one, or at
either end. -/
def Boundary (sep : α) (p q : List α) : Prop :=
  p = [] ∨ p.getLast? = some sep ∨ q = [] ∨ q.head? = some sep

omit [DecidableEq α] in
/-- What follows a cut at a component boundary is again a joined stack, after at most one
separator. -/
theorem exists_suffix_of_boundary {cs : List (List α)} (h : ∀ c ∈ cs, Component sep c)
    {p q : List α} (hpq : joined sep cs = p ++ q) (hb : Boundary sep p q) :
    ∃ ds, ds <:+ cs ∧ (q = joined sep ds ∨ ds ≠ [] ∧ q = sep :: joined sep ds) := by
  -- Induction on the components: the cut is before, in or behind the first.
  induction cs generalizing p with
  | nil =>
    obtain ⟨rfl, rfl⟩ : p = [] ∧ q = [] := by simpa using hpq.symm
    exact ⟨[], List.suffix_refl _, Or.inl rfl⟩
  | cons c cs ih =>
    obtain ⟨hcne, hcsep⟩ := h c (by simp)
    have hcs : ∀ d ∈ cs, Component sep d := fun d hd => h d (by simp [hd])
    rcases eq_or_ne p [] with rfl | hp
    · exact ⟨c :: cs, List.suffix_refl _, Or.inl (by simpa using hpq.symm)⟩
    -- the rest of the name after its first component
    obtain ⟨t, ht, htail⟩ : ∃ t, joined sep (c :: cs) = c ++ t ∧
        (cs = [] ∧ t = [] ∨ cs ≠ [] ∧ t = sep :: joined sep cs) := by
      rcases eq_or_ne cs [] with rfl | hne
      · exact ⟨[], by simp, Or.inl ⟨rfl, rfl⟩⟩
      · exact ⟨_, joined_cons hne, Or.inr ⟨hne, rfl⟩⟩
    rw [ht] at hpq
    rcases List.append_eq_append_iff.mp hpq with ⟨a, hpa, hta⟩ | ⟨a, hca, hqa⟩
    · -- the cut is at or after the end of the first component
      rcases htail with ⟨rfl, rfl⟩ | ⟨hne, rfl⟩
      · obtain ⟨rfl, rfl⟩ : a = [] ∧ q = [] := by simpa using hta.symm
        exact ⟨[], List.nil_suffix, Or.inl rfl⟩
      · cases a with
        | nil => exact ⟨cs, List.suffix_cons _ _, Or.inr ⟨hne, by simpa using hta.symm⟩⟩
        | cons x a =>
          obtain ⟨rfl, hja⟩ : sep = x ∧ joined sep cs = a ++ q := by simpa using hta
          have hb' : Boundary sep a q := by
            rcases hb with hb | hb | hb
            · exact absurd hb hp
            · rcases eq_or_ne a [] with ha | ha
              · exact Or.inl ha
              · right; left
                obtain ⟨a, y, rfl⟩ := (List.eq_nil_or_concat a).resolve_left ha
                rw [hpa, List.concat_eq_append, ← List.cons_append, ← List.append_assoc,
                  List.getLast?_concat] at hb
                rw [List.concat_eq_append, List.getLast?_concat, hb]
            · exact Or.inr (Or.inr hb)
          obtain ⟨ds, hds, hq⟩ := ih hcs hja hb'
          exact ⟨ds, hds.trans (List.suffix_cons _ _), hq⟩
    · -- the cut is within the first component, so it is at its end
      have ha : a = [] := by
        by_contra hane
        rcases hb with hb | hb | hb | hb
        · exact hp hb
        · obtain ⟨p, rfl⟩ := List.getLast?_eq_some_iff.mp hb
          exact hcsep (by simp [hca])
        · exact hane (List.append_eq_nil_iff.mp (hqa.symm.trans hb)).1
        · obtain ⟨x, a, rfl⟩ := List.exists_cons_of_ne_nil hane
          have hx : x = sep := by simpa [hqa] using hb
          exact hcsep (by simp [hca, hx])
      subst ha
      rcases htail with ⟨rfl, rfl⟩ | ⟨hne, rfl⟩
      · exact ⟨[], List.nil_suffix, Or.inl (by simpa using hqa)⟩
      · exact ⟨cs, List.suffix_cons _ _, Or.inr ⟨hne, by simpa using hqa⟩⟩

end Normal

end Lexical
