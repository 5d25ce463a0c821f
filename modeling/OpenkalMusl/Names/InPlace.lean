import OpenkalMusl.Names.Join

/-!
# The stack in the output buffer

`normalise` of `okm_fd.c` keeps its stack of components in the buffer it answers in: a component is
copied behind those that are there, and one that ascends has the buffer scanned backwards for the
separator before its last component. `join` writes a root in front and calls it with what is left of
the capacity.

The functions of `Names.Normalise` and `Names.Join` return a list; those here store characters at
addresses, and leave in the memory what those return.

## Main definitions

* `CText`: a C string
* `CharMemory`: a character at every address, and the addresses that were stored at
* `CharMemory.normalise`, `CharMemory.join`: the source's functions, upon a buffer at `out`
* `CText.lexical`: the components of a name read over a stack, joined by separators

## Main results

* `CharMemory.normalise_spec`, `CharMemory.join_spec`: they leave what the functions on lists return
* `CharMemory.within_normalise`: it stores only within the capacity
* `normalise_lexical`: `normalise` is the lexical normal form
-/

namespace OpenkalMusl

open Lexical

/-! ## C strings -/

/-- The zero that ends a C string. -/
def nul : Char := Char.ofNat 0

/-- A C string: no character of it is zero. -/
structure CText where
  text : Text
  plain : nul ∉ text

theorem CText.eq_of_text {a b : CText} (h : a.text = b.text) : a = b := by
  cases a
  cases b
  cases h
  rfl

/-- Two names with a separator between them. -/
def CText.slash (a b : CText) : CText where
  text := a.text ++ '/' :: b.text
  plain := by
    rw [List.mem_append, List.mem_cons, not_or, not_or]
    exact ⟨a.plain, by decide, b.plain⟩

/-- **The lexical normal form**: the non-empty components read from left to right over a stack,
joined by single separators. -/
def CText.lexical (a : CText) : CText where
  text := joined '/' (reduce here up (segments '/' a.text))
  plain hmem := by
    rcases mem_joined hmem with hsep | ⟨c, hc, hnul⟩
    · exact absurd hsep (by decide)
    · exact a.plain (subset_of_mem_segments (reduce_ordinary hc).1 hnul)

/-! ## The functions -/

/-- A character at every address, and the addresses that were stored at. -/
structure CharMemory where
  char : ℕ → Char
  stored : List ℕ

namespace CharMemory

def store (m : CharMemory) (a : ℕ) (c : Char) : CharMemory :=
  ⟨Function.update m.char a c, a :: m.stored⟩

/-- The scan backwards: `while (o > 0 && out[o - 1] != '/') o--`. -/
def scanBack (m : CharMemory) (out : ℕ) : ℕ → ℕ
  | 0 => 0
  | o + 1 => if m.char (out + o) ≠ '/' then m.scanBack out o else o + 1

/-- Where the output ends after a component that ascends. -/
def popEnd (m : CharMemory) (out o : ℕ) : ℕ :=
  let o := m.scanBack out o
  -- the separator is dropped too
  if o > 0 then o - 1 else o

/-- `out[o++] = s[i]` for each character of a component. -/
def copyIn (m : CharMemory) (out o : ℕ) : Text → CharMemory × ℕ
  | [] => (m, o)
  | c :: s => (m.store (out + o) c).copyIn out (o + 1) s

/-- A component copied behind those that are there. -/
def pushIn (m : CharMemory) (out o : ℕ) (s : Text) : CharMemory × ℕ :=
  if o ≠ 0 then (m.store (out + o) '/').copyIn out (o + 1) s else m.copyIn out o s

/-- The loop of `normalise`, with the output ending at `o`, and the zero stored behind it. -/
def normaliseLoop (out cap : ℕ) : ℕ → Text → CharMemory → ℕ → CharMemory × Except Errno Unit
  | 0, _, m, o => (m.store (out + o) nul, .ok ())
  | fuel + 1, p, m, o =>
    let p := p.dropWhile (· = '/')
    if p = [] then (m.store (out + o) nul, .ok ())
    else
      let s := p.takeWhile (· ≠ '/')
      let p := p.dropWhile (· ≠ '/')
      if s = here then normaliseLoop out cap fuel p m o
      else if s = up then normaliseLoop out cap fuel p m (m.popEnd out o)
      else if o + s.length + 2 > cap then (m, .error .enametoolong)
      else
        let r := m.pushIn out o s
        normaliseLoop out cap fuel p r.1 r.2

/-- `normalise`, into the `cap` bytes at `out`. -/
def normalise (m : CharMemory) (input : Text) (out cap : ℕ) : CharMemory × Except Errno Unit :=
  normaliseLoop out cap input.length input (m.store out nul) 0

/-- `join`, into the `cap` bytes at `out`. -/
def join (m : CharMemory) (base rel : Text) (out cap : ℕ) : CharMemory × Except Errno Unit :=
  let rroot := rootLength rel
  let proot := if rroot ≠ 0 then 0 else rootLength base
  let tmp := joinBuffer (if rroot ≠ 0 then [] else base.drop proot) (rel.drop rroot)
  if tmp.length + 1 ≥ okmMaxPath then (m, .error .enametoolong)
  else
    let keep := if rroot ≠ 0 then rroot else proot
    let from_ := if rroot ≠ 0 then rel else base
    let tmp := if keep = 3 ∧ from_[1]? = some ':' then tmp.map slashed else tmp
    if keep + 1 ≥ cap then (m, .error .enametoolong)
    else (m.copyIn out 0 ((from_.take keep).map slashed)).1.normalise tmp (out + keep) (cap - keep)

/-! ## What stands in the memory -/

/-- The characters from `out` on are those of `t`. -/
def Begins (m : CharMemory) (out : ℕ) (t : Text) : Prop :=
  ∀ i (h : i < t.length), m.char (out + i) = t[i]

/-- The C string at `out`. -/
def Holds (m : CharMemory) (out : ℕ) (t : CText) : Prop :=
  m.Begins out t.text ∧ m.char (out + t.text.length) = nul

variable {m : CharMemory} {out cap : ℕ} {t : Text}

theorem begins_nil : m.Begins out [] := fun _ h => absurd h (Nat.not_lt_zero _)

theorem Begins.of_start {u : Text} (h : m.Begins out t) (hu : u <+: t) : m.Begins out u := by
  obtain ⟨v, rfl⟩ := hu
  intro i hi
  rw [h i (by rw [List.length_append]; omega), List.getElem_append_left hi]

theorem Begins.store (h : m.Begins out t) {a : ℕ} (ha : out + t.length ≤ a) (c : Char) :
    (m.store a c).Begins out t := by
  intro i hi
  have hne : out + i ≠ a := by omega
  exact (Function.update_of_ne hne _ _).trans (h i hi)

/-- One character more. -/
theorem Begins.snoc (h : m.Begins out t) (c : Char) :
    (m.store (out + t.length) c).Begins out (t ++ [c]) := by
  intro i hi
  rcases Nat.lt_or_ge i t.length with hlt | hge
  · rw [List.getElem_append_left hlt]
    exact h.store le_rfl c i hlt
  · rw [List.length_append, List.length_singleton] at hi
    obtain rfl : i = t.length := by omega
    rw [List.getElem_concat_length rfl]
    exact Function.update_self _ _ _

/-- An address holds one C string. -/
theorem Holds.unique {a b : CText} (ha : m.Holds out a) (hb : m.Holds out b) : a = b := by
  -- where one string ended first, the other would have a zero in it
  have hle : ∀ {c d : CText}, m.Holds out c → m.Holds out d →
      d.text.length ≤ c.text.length := by
    intro c d hc hd
    by_contra hlt
    rw [not_le] at hlt
    have hnul := (hd.1 _ hlt).symm.trans hc.2
    exact d.plain (hnul ▸ List.getElem_mem hlt)
  refine CText.eq_of_text (List.ext_getElem (le_antisymm (hle hb ha) (hle ha hb)) ?_)
  intro i hi hi'
  rw [← ha.1 i hi, ← hb.1 i hi']

/-! ## The stack in the buffer -/

/-- The scan backwards ends where the text does without its last component. -/
theorem scanBack_eq (h : m.Begins out t) :
    m.scanBack out t.length = (t.rdropWhile (· ≠ '/')).length := by
  induction t using List.reverseRecOn with
  | nil => rfl
  | append_singleton t c ih =>
    have hlast : m.char (out + t.length) = c := by
      rw [h t.length (by simp), List.getElem_concat_length rfl]
    rw [List.length_append, List.length_singleton, scanBack, hlast, List.rdropWhile_concat]
    by_cases hc : c = '/'
    · simp [hc]
    · simpa [hc] using ih (h.of_start (List.prefix_append _ _))

/-- **A pop** ends the output before the last component and the separator in front of it. -/
theorem popEnd_eq (h : m.Begins out t) : m.popEnd out t.length = (dropComponent t).length := by
  rw [popEnd, scanBack_eq h, dropComponent, List.length_dropLast]
  split_ifs with hpos
  · rfl
  · omega

theorem dropComponent_start (t : Text) : dropComponent t <+: t :=
  (List.dropLast_prefix _).trans (List.rdropWhile_prefix _ _)

theorem Begins.pop (h : m.Begins out t) : m.Begins out (dropComponent t) :=
  h.of_start (dropComponent_start t)

theorem Begins.copyIn (h : m.Begins out t) (s : Text) :
    (m.copyIn out t.length s).1.Begins out (t ++ s) ∧
      (m.copyIn out t.length s).2 = (t ++ s).length := by
  induction s generalizing m t with
  | nil => simpa [CharMemory.copyIn] using h
  | cons c s ih =>
    have hnext := ih (h.snoc c)
    rw [List.length_append, List.length_singleton, List.append_assoc] at hnext
    exact hnext

/-- **A push** leaves the component behind a separator. -/
theorem Begins.push (h : m.Begins out t) (s : Text) :
    (m.pushIn out t.length s).1.Begins out (addComponent t s) ∧
      (m.pushIn out t.length s).2 = (addComponent t s).length := by
  unfold pushIn addComponent
  by_cases ht : t = []
  · subst ht
    simpa using h.copyIn s
  · rw [if_pos (by simpa using ht), if_neg ht]
    simpa using (h.snoc '/').copyIn s

/-- **The loop** leaves what the loop on lists returns, with the zero behind it. -/
theorem normaliseLoop_spec (h : m.Begins out t) (fuel : ℕ) (p : Text) :
    (normaliseLoop out cap fuel p m t.length).2 =
        (OpenkalMusl.normaliseLoop cap fuel p t).map (fun _ => ()) ∧
      ∀ u, OpenkalMusl.normaliseLoop cap fuel p t = .ok u →
        (normaliseLoop out cap fuel p m t.length).1.Begins out u ∧
          (normaliseLoop out cap fuel p m t.length).1.char (out + u.length) = nul := by
  -- the zero goes behind the text, which it leaves as it was
  have hzero : ∀ {m : CharMemory} {t : Text}, m.Begins out t →
      (m.store (out + t.length) nul).Begins out t ∧
        (m.store (out + t.length) nul).char (out + t.length) = nul := by
    intro m t h
    exact ⟨h.store le_rfl nul, Function.update_self _ _ _⟩
  induction fuel generalizing m t p with
  | zero =>
    refine ⟨rfl, fun u hu => ?_⟩
    obtain rfl := Except.ok.inj hu
    exact hzero h
  | succ fuel ih =>
    unfold normaliseLoop OpenkalMusl.normaliseLoop
    dsimp only
    split_ifs with hp hhere hup hroom
    · refine ⟨rfl, fun u hu => ?_⟩
      obtain rfl := Except.ok.inj hu
      exact hzero h
    · exact ih h _
    · rw [popEnd_eq h]
      exact ih h.pop _
    · exact ⟨rfl, fun _ hu => (by cases hu)⟩
    · rw [(h.push _).2]
      exact ih (h.push _).1 _

/-- **`normalise`** leaves at `out` what the function on lists returns. -/
theorem normalise_spec (m : CharMemory) (input : Text) (out cap : ℕ) :
    (m.normalise input out cap).2 = (OpenkalMusl.normalise input cap).map (fun _ => ()) ∧
      ∀ u, OpenkalMusl.normalise input cap = .ok u →
        (m.normalise input out cap).1.Begins out u ∧
          (m.normalise input out cap).1.char (out + u.length) = nul :=
  normaliseLoop_spec (m := m.store out nul) begins_nil input.length input

/-! ## What is stored at -/

/-- What was stored at since lies from `lo` to below `hi`, and all else is as it was. -/
structure Within (m m' : CharMemory) (lo hi : ℕ) : Prop where
  stored : ∀ a ∈ m'.stored, a ∈ m.stored ∨ (lo ≤ a ∧ a < hi)
  kept : ∀ a, ¬ (lo ≤ a ∧ a < hi) → m'.char a = m.char a

variable {m' m'' : CharMemory} {lo hi : ℕ}

theorem Within.refl (m : CharMemory) (lo hi : ℕ) : m.Within m lo hi :=
  ⟨fun _ ha => Or.inl ha, fun _ _ => rfl⟩

theorem Within.trans (h : m.Within m' lo hi) (h' : m'.Within m'' lo hi) : m.Within m'' lo hi := by
  refine ⟨fun a ha => ?_, fun a ha => (h'.kept a ha).trans (h.kept a ha)⟩
  rcases h'.stored a ha with ha | ha
  · exact h.stored a ha
  · exact Or.inr ha

theorem Within.mono (h : m.Within m' lo hi) {lo' hi' : ℕ} (hlo : lo' ≤ lo) (hhi : hi ≤ hi') :
    m.Within m' lo' hi' where
  stored a ha := (h.stored a ha).imp_right fun hin => ⟨hlo.trans hin.1, hin.2.trans_le hhi⟩
  kept a ha := h.kept a fun hin => ha ⟨hlo.trans hin.1, hin.2.trans_le hhi⟩

theorem within_store {a : ℕ} (hlo : lo ≤ a) (hhi : a < hi) (c : Char) :
    m.Within (m.store a c) lo hi := by
  refine ⟨fun b hb => ?_, fun b hb => ?_⟩
  · rcases List.mem_cons.mp hb with rfl | hb
    · exact Or.inr ⟨hlo, hhi⟩
    · exact Or.inl hb
  · have hne : b ≠ a := fun hba => hb (hba ▸ ⟨hlo, hhi⟩)
    exact Function.update_of_ne hne _ _

/-- What stands outside is still there. -/
theorem Begins.within (h : m.Begins out t) (hin : m.Within m' lo hi) (hlo : out + t.length ≤ lo) :
    m'.Begins out t := by
  intro i hi
  rw [hin.kept _ (by omega)]
  exact h i hi

theorem within_copyIn {o : ℕ} (s : Text) (h : o + s.length ≤ cap) :
    m.Within (m.copyIn out o s).1 out (out + cap) := by
  induction s generalizing m o with
  | nil => exact Within.refl _ _ _
  | cons c s ih =>
    rw [List.length_cons] at h
    exact (within_store (by omega) (by omega) c).trans (ih (by omega))

theorem within_pushIn {o : ℕ} (s : Text) (h : o + s.length + 2 ≤ cap) :
    m.Within (m.pushIn out o s).1 out (out + cap) := by
  unfold pushIn
  split_ifs
  · exact (within_store (by omega) (by omega) '/').trans (within_copyIn s (by omega))
  · exact within_copyIn s (by omega)

/-- **The loop** stores below the capacity: its output always ends below it, and the zero goes
there. -/
theorem within_normaliseLoop (h : m.Begins out t) (hlt : t.length < cap) (fuel : ℕ) (p : Text) :
    m.Within (normaliseLoop out cap fuel p m t.length).1 out (out + cap) := by
  induction fuel generalizing m t p with
  | zero => exact within_store (by omega) (by omega) nul
  | succ fuel ih =>
    unfold normaliseLoop
    dsimp only
    split_ifs with hp hhere hup hroom
    · exact within_store (by omega) (by omega) nul
    · exact ih h hlt _
    · rw [popEnd_eq h]
      exact ih h.pop ((dropComponent_start t).length_le.trans_lt hlt) _
    · exact Within.refl _ _ _
    · -- a component that has room leaves room for the zero behind it
      rw [not_lt] at hroom
      have hadd : (addComponent t ((p.dropWhile (· = '/')).takeWhile (· ≠ '/'))).length < cap := by
        unfold addComponent
        split_ifs <;> simp only [List.length_append, List.length_nil, List.length_singleton] <;>
          omega
      rw [(h.push _).2]
      exact (within_pushIn _ hroom).trans (ih (h.push _).1 hadd _)

/-- **`normalise` stores only within its capacity**, whatever it returns. -/
theorem within_normalise (m : CharMemory) (input : Text) (out : ℕ) (hcap : 0 < cap) :
    m.Within (m.normalise input out cap).1 out (out + cap) :=
  (within_store le_rfl (by omega) nul).trans
    (within_normaliseLoop (m := m.store out nul) begins_nil hcap input.length input)

/-! ## A root in front -/

/-- Two texts, the one where the other ends. -/
theorem Begins.append {u : Text} (h : m.Begins out t) (hu : m.Begins (out + t.length) u) :
    m.Begins out (t ++ u) := by
  intro i hi
  rcases Nat.lt_or_ge i t.length with hlt | hge
  · rw [List.getElem_append_left hlt]
    exact h i hlt
  · rw [List.length_append] at hi
    rw [List.getElem_append_right hge, ← hu (i - t.length) (by omega)]
    congr 1
    omega

/-- What `normalise` leaves behind a root that was copied. -/
theorem rooted_spec (m : CharMemory) (root tmp : Text) (out cap : ℕ) (hroot : root.length < cap) :
    let r := (m.copyIn out 0 root).1.normalise tmp (out + root.length) (cap - root.length)
    r.2 = (OpenkalMusl.normalise tmp (cap - root.length)).map (fun _ => ()) ∧
      (∀ u, OpenkalMusl.normalise tmp (cap - root.length) = .ok u →
        r.1.Begins out (root ++ u) ∧ r.1.char (out + (root ++ u).length) = nul) ∧
      m.Within r.1 out (out + cap) := by
  intro r
  have hcopied : (m.copyIn out 0 root).1.Begins out root := (begins_nil.copyIn root).1
  have hin : (m.copyIn out 0 root).1.Within r.1 (out + root.length)
      (out + root.length + (cap - root.length)) := within_normalise _ _ _ (by omega)
  obtain ⟨hanswer, hleft⟩ :=
    normalise_spec (m.copyIn out 0 root).1 tmp (out + root.length) (cap - root.length)
  refine ⟨hanswer, fun u hu => ?_, ?_⟩
  · obtain ⟨hbegins, hnul⟩ := hleft u hu
    refine ⟨(hcopied.within hin le_rfl).append hbegins, ?_⟩
    rwa [List.length_append, ← Nat.add_assoc]
  · exact (within_copyIn root (by omega)).trans (hin.mono (by omega) (by omega))

/-- **`join`** leaves at `out` what the function on lists returns, and stores only within its
capacity. -/
theorem join_spec (m : CharMemory) (base rel : Text) (out cap : ℕ) :
    (m.join base rel out cap).2 = (OpenkalMusl.join base rel cap).map (fun _ => ()) ∧
      (∀ u, OpenkalMusl.join base rel cap = .ok u →
        (m.join base rel out cap).1.Begins out u ∧
          (m.join base rel out cap).1.char (out + u.length) = nul) ∧
      m.Within (m.join base rel out cap).1 out (out + cap) := by
  unfold join OpenkalMusl.join
  dsimp only
  -- the root that is kept is as long as it is said to be
  have hkeep : (((if rootLength rel ≠ 0 then rel else base).take
      (if rootLength rel ≠ 0 then rootLength rel
        else if rootLength rel ≠ 0 then 0 else rootLength base)).map slashed).length =
      if rootLength rel ≠ 0 then rootLength rel
        else if rootLength rel ≠ 0 then 0 else rootLength base := by
    rw [List.length_map]
    split_ifs
    · exact length_take_rootLength rel
    · exact length_take_rootLength base
  generalize (if rootLength rel ≠ 0 then rootLength rel
    else if rootLength rel ≠ 0 then 0 else rootLength base) = keep at hkeep ⊢
  generalize ((if rootLength rel ≠ 0 then rel else base).take keep).map slashed = root at hkeep ⊢
  subst hkeep
  by_cases hlong : (joinBuffer (if rootLength rel ≠ 0 then []
      else base.drop (if rootLength rel ≠ 0 then 0 else rootLength base))
      (rel.drop (rootLength rel))).length + 1 ≥ okmMaxPath
  · rw [if_pos hlong, if_pos hlong]
    exact ⟨rfl, fun _ hu => (by cases hu), Within.refl _ _ _⟩
  · rw [if_neg hlong, if_neg hlong]
    by_cases hcap : root.length + 1 ≥ cap
    · rw [if_pos hcap, if_pos hcap]
      exact ⟨rfl, fun _ hu => (by cases hu), Within.refl _ _ _⟩
    · rw [if_neg hcap, if_neg hcap]
      -- the normalised part stands behind the root
      generalize (if root.length = 3 ∧
        (if rootLength rel ≠ 0 then rel else base)[1]? = some ':' then _ else _ : Text) = tmp
      obtain ⟨hanswer, hleft, hin⟩ := rooted_spec m root tmp out cap (by omega)
      refine ⟨?_, fun u hu => ?_, hin⟩
      · rw [hanswer]
        cases OpenkalMusl.normalise tmp (cap - root.length) with
        | error e => rfl
        | ok v => rfl
      · cases hn : OpenkalMusl.normalise tmp (cap - root.length) with
        | error e =>
          rw [hn] at hu
          cases hu
        | ok v =>
          rw [hn] at hu
          obtain rfl := Except.ok.inj hu
          exact hleft v hn

end CharMemory

/-! ## The lexical normal form -/

open CharMemory

/-- `normalise`, into `cap` bytes somewhere, returns zero for `a` and leaves `t` there. -/
def Normalises (cap : ℕ) (a t : CText) : Prop :=
  ∃ (m : CharMemory) (out : ℕ), (m.normalise a.text out cap).2 = .ok () ∧
    (m.normalise a.text out cap).1.Holds out t

/-- Where `normalise` returns zero, so does the function on lists, with the lexical normal form. -/
theorem normalise_of_zero {m : CharMemory} {a : CText} {out cap : ℕ}
    (h : (m.normalise a.text out cap).2 = .ok ()) :
    OpenkalMusl.normalise a.text cap = .ok a.lexical.text := by
  rw [(normalise_spec m a.text out cap).1] at h
  cases hn : OpenkalMusl.normalise a.text cap with
  | error e =>
    rw [hn] at h
    cases h
  | ok u =>
    obtain ⟨-, rfl⟩ := normalise_eq_ok_iff.mp hn
    rfl

theorem holds_lexical {m : CharMemory} {a : CText} {out cap : ℕ}
    (h : (m.normalise a.text out cap).2 = .ok ()) :
    (m.normalise a.text out cap).1.Holds out a.lexical :=
  (normalise_spec m a.text out cap).2 _ (normalise_of_zero h)

theorem normalises_iff {cap : ℕ} {a t : CText} :
    Normalises cap a t ↔ FitsThroughout cap (segments '/' a.text) ∧ t = a.lexical := by
  constructor
  · rintro ⟨m, out, hzero, hholds⟩
    exact ⟨(normalise_eq_ok_iff.mp (normalise_of_zero hzero)).1,
      hholds.unique (holds_lexical hzero)⟩
  · rintro ⟨hfits, rfl⟩
    let m : CharMemory := ⟨fun _ => nul, []⟩
    have hzero : (m.normalise a.text 0 cap).2 = .ok () := by
      rw [(normalise_spec m a.text 0 cap).1, normalise_of_fits hfits]
      rfl
    exact ⟨m, 0, hzero, holds_lexical hzero⟩

/-- The components of a lexical normal form are the stack it was joined from. -/
theorem segments_lexical (a : CText) :
    segments '/' a.lexical.text = reduce here up (segments '/' a.text) :=
  segments_joined (stack_reduce_segments a.text).component

theorem CText.lexical_lexical (a : CText) : a.lexical.lexical = a.lexical := by
  refine CText.eq_of_text ?_
  have hstack : reduce here up (reduce here up (segments '/' a.text)) =
      reduce here up (segments '/' a.text) := by
    simpa using reduce_reduce_append (segments '/' a.text) []
  show joined '/' (reduce here up (segments '/' a.lexical.text)) = _
  rw [segments_lexical, hstack]
  rfl

theorem CText.lexical_slash (a b : CText) : (a.lexical.slash b).lexical = (a.slash b).lexical := by
  refine CText.eq_of_text ?_
  have hparts : ∀ c : CText,
      segments '/' (c.slash b).text = segments '/' c.text ++ segments '/' b.text :=
    fun c => segments_append_cons c.text b.text
  show joined '/' (reduce here up (segments '/' (a.lexical.slash b).text)) =
    joined '/' (reduce here up (segments '/' (a.slash b).text))
  rw [hparts, hparts, segments_lexical, reduce_reduce_append]

/-- **`normalise` is the lexical normal form.** Wherever it returns zero it leaves the components
read over a stack, joined by separators; so it leaves its own results as they are, a name behind a
separator may be normalised behind the normal form of what stands in front; and it stores nothing
outside a capacity of at least one, whatever it returns. -/
theorem normalise_lexical (cap : ℕ) (a : CText) :
    (∀ (m : CharMemory) (out : ℕ), (m.normalise a.text out cap).2 = .ok () →
      (m.normalise a.text out cap).1.Holds out a.lexical) ∧
    (∀ t, Normalises cap a t →
      Normalises cap t t ∧ ∀ cap' u, Normalises cap' t u → u = t) ∧
    (∀ b t, Normalises cap a t → ∀ cap' cap'' u v, Normalises cap' (a.slash b) u →
      Normalises cap'' (t.slash b) v → u = v) ∧
    (1 ≤ cap → ∀ (m : CharMemory) (out : ℕ),
      m.Within (m.normalise a.text out cap).1 out (out + cap)) := by
  refine ⟨fun m out => holds_lexical, fun t ht => ?_, fun b t ht cap' cap'' u v hu hv => ?_,
    fun hcap m out => within_normalise m a.text out hcap⟩
  · obtain ⟨hfits, rfl⟩ := normalises_iff.mp ht
    refine ⟨normalises_iff.mpr ⟨?_, a.lexical_lexical.symm⟩, fun cap' u hu => ?_⟩
    · rw [segments_lexical]
      exact hfits.reduced
    · rw [(normalises_iff.mp hu).2, a.lexical_lexical]
  · obtain ⟨-, rfl⟩ := normalises_iff.mp ht
    rw [(normalises_iff.mp hu).2, (normalises_iff.mp hv).2, a.lexical_slash]

/-- `a/../b`, in four bytes that held something else. -/
theorem normalise_lexical_ascending :
    ((⟨fun _ => 'x', []⟩ : CharMemory).normalise ['a', '/', '.', '.', '/', 'b'] 64 4).1.Holds 64
      ⟨['b'], by decide⟩ := by
  let a : CText := ⟨['a', '/', '.', '.', '/', 'b'], by decide⟩
  have hlexical : a.lexical = ⟨['b'], by decide⟩ := CText.eq_of_text (by decide)
  have hholds := (normalise_lexical 4 a).1 ⟨fun _ => 'x', []⟩ 64 rfl
  rwa [hlexical] at hholds

end OpenkalMusl
