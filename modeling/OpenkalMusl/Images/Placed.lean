import Mathlib.Data.Finset.Basic
import Mathlib.Data.List.Count
import Mathlib.Data.List.Pairwise
import OpenkalMusl.Port.Basic
import OpenkalMusl.Transition.History
import OpenkalMusl.Transition.Run

/-!
# Images opened and closed

`dlopen` and `dlclose` of `okm_image.c`. The placed images are a list under a lock; each entry has
the image and a count of references. The lock is given back before the initialisers run and before
the finalisers run, so another call can find an image whose initialisers are still running, and
can close it. Loading, the name of an image and what its initialisers do are the loader's.

Calls are activations: any number of contexts, and calls made from within an initialiser or a
finaliser. A handle is the address of an entry, and an address that was given back may be given
out again; a call of `dlclose` carries the image its handle was given for.

Where every image found open has been initialised, where none is closed for good before it has
been, and where no closed handle is closed again while its address is another's, each image is
initialised before it is used and finalised after.

## Main definitions

* `Images.step`: one part of a call, from the lock to the unlock or between
* `Orderly pre e`: what the history before an event owes it
* `Images.Settled`: the condition on a call

## Main results

* `Images.Inv.step`: a step that meets the condition keeps the invariant
* `Images.images_orderly`: in every run of such steps every event is in order
-/

namespace OpenkalMusl

open Transition

/-! ## The calls -/

/-- What is done with an image, in the order it is done. -/
inductive ImageEvent where
  | placed (i : ℕ)
  | ref (i : ℕ)
  | unref (i : ℕ)
  | removed (i : ℕ)
  | initBegin (i : ℕ)
  | initEnd (i : ℕ)
  /-- A `dlopen` returns, with the image and its handle. -/
  | returned (i h : ℕ)
  | finalBegin (i : ℕ)
  | finalEnd (i : ℕ)
  | unloaded (i : ℕ)
  /-- A `dlclose` of a handle that was given for `meant`: `-1`, or the image whose count it
  lowers. -/
  | closed (meant : ℕ) (touched : Option ℕ)
  deriving DecidableEq

/-- `struct placed`, with the loader's name of the image. -/
structure PlacedImage where
  handle : ℕ
  image : ℕ
  name : Text
  refs : ℕ
  deriving DecidableEq

/-- Where an activation is. -/
inductive ImagePc where
  | idle
  /-- `dlopen` has placed an image, and is about to initialise it. -/
  | placed (h i : ℕ)
  | initialising (h i : ℕ)
  | returning (h i : ℕ)
  /-- `dlclose` has removed an image, and is about to finalise it. -/
  | removed (h i : ℕ)
  | finalising (h i : ℕ)
  | finalised (h i : ℕ)
  | unloaded (h i : ℕ)
  deriving DecidableEq

structure Images (A : Type*) where
  /-- `g_placed` -/
  list : List PlacedImage
  pc : A → ImagePc
  /-- The addresses of entries that `malloc` gave and that were not given back. -/
  live : Finset ℕ
  log : List ImageEvent

inductive ImageLabel (A : Type*) where
  /-- The locked section of `dlopen`. The answer is the module that was loaded and the address of
  its entry, or nothing where the file is not read or not loaded. -/
  | dlopen (a : A) (path : Option Text) (answer : Option (ℕ × ℕ))
  /-- The locked section of `dlclose`. -/
  | dlclose (a : A) (h meant : ℕ)
  /-- What comes next of a call, outside the lock. -/
  | next (a : A)

/-- The most an `int` counts. -/
def intMax : ℕ := 2147483647

namespace Images

variable {A : Type*}

def start : Images A where
  list := []
  pc := fun _ => .idle
  live := ∅
  log := []

/-- What the loader and `malloc` may answer with: a module that is new, and an address that is not
in use. -/
def MayPlace (s : Images A) (i h : ℕ) : Prop := .placed i ∉ s.log ∧ h ∉ s.live

instance (s : Images A) (i h : ℕ) : Decidable (s.MayPlace i h) :=
  inferInstanceAs (Decidable (_ ∧ _))

/-- The entry of a name, and the entry at an address. -/
def named (s : Images A) (path : Text) : Option PlacedImage := s.list.find? (·.name = path)
def at_ (s : Images A) (h : ℕ) : Option PlacedImage := s.list.find? (·.handle = h)

/-- The entry at an address with another count. -/
def setRefs (list : List PlacedImage) (h refs : ℕ) : List PlacedImage :=
  list.map fun p => if p.handle = h then { p with refs := refs } else p

variable [DecidableEq A]

def goto (s : Images A) (a : A) (pc : ImagePc) : Images A :=
  { s with pc := Function.update s.pc a pc }

def say (s : Images A) (e : ImageEvent) : Images A := { s with log := s.log ++ [e] }

/-- One part of a call: its locked section, or what it does outside the lock. -/
def step (s : Images A) : ImageLabel A → Option (Images A)
  | .dlopen a path answer =>
    if s.pc a ≠ .idle then none
    else
      match path with
      -- RTLD_DEFAULT
      | none => some s
      | some path =>
        match s.named path with
        | some p =>
          if p.refs < intMax then
            some (({ s with list := setRefs s.list p.handle (p.refs + 1) }.say
              (.ref p.image)).goto a (.returning p.handle p.image))
          else none
        | none =>
          match answer with
          | none => some s
          | some (i, h) =>
            if s.MayPlace i h then
              some ((({ s with list := ⟨h, i, path, 1⟩ :: s.list, live := insert h s.live }.say
                (.placed i)).say (.ref i)).goto a (.placed h i))
            else none
  | .dlclose a h meant =>
    if s.pc a ≠ .idle ∨ .returned meant h ∉ s.log then none
    else
      match s.at_ h with
      | none => some (s.say (.closed meant none))
      | some p =>
        if 1 < p.refs then
          some (({ s with list := setRefs s.list h (p.refs - 1) }.say
            (.closed meant (some p.image))).say (.unref p.image))
        else
          some ((((({ s with list := s.list.filter (·.handle ≠ h) }.say
            (.closed meant (some p.image))).say (.unref p.image)).say (.removed p.image)).goto a
              (.removed h p.image)))
  | .next a =>
    match s.pc a with
    | .idle => none
    | .placed h i => some ((s.say (.initBegin i)).goto a (.initialising h i))
    | .initialising h i => some ((s.say (.initEnd i)).goto a (.returning h i))
    | .returning h i => some ((s.say (.returned i h)).goto a .idle)
    | .removed h i => some ((s.say (.finalBegin i)).goto a (.finalising h i))
    | .finalising h i => some ((s.say (.finalEnd i)).goto a (.finalised h i))
    | .finalised h i => some ((s.say (.unloaded i)).goto a (.unloaded h i))
    -- free
    | .unloaded h _ => some ({ s with live := s.live.erase h }.goto a .idle)

end Images

/-! ## Events in order -/

/-- **What the history before an event owes it.** An image is new when it is placed; it is
initialised once, and that is complete before a `dlopen` of it returns; it is finalised once, after
every reference to it was given back for good, and unloaded once after that, with its initialisers
complete; and a `dlclose` of a handle whose image was closed for good touches no image. -/
def Orderly (pre : List ImageEvent) : ImageEvent → Prop
  | .placed i => .placed i ∉ pre
  | .ref i => .removed i ∉ pre
  | .unref _ => True
  | .removed i => .removed i ∉ pre
  | .initBegin i => .placed i ∈ pre ∧ .initBegin i ∉ pre
  | .initEnd i => .initBegin i ∈ pre ∧ .initEnd i ∉ pre
  | .returned i _ => .initEnd i ∈ pre
  | .finalBegin i => .removed i ∈ pre ∧ .initEnd i ∈ pre ∧
      pre.count (.ref i) = pre.count (.unref i) ∧ .finalBegin i ∉ pre
  | .finalEnd i => .finalBegin i ∈ pre ∧ .finalEnd i ∉ pre
  | .unloaded i => .initEnd i ∈ pre ∧ .finalEnd i ∈ pre ∧
      pre.count (.ref i) = pre.count (.unref i) ∧ .unloaded i ∉ pre
  | .closed meant touched => .removed meant ∈ pre → touched = none

instance (pre : List ImageEvent) (e : ImageEvent) : Decidable (Orderly pre e) := by
  unfold Orderly
  split <;> infer_instance

/-- The condition on a call: an image found open has been initialised; a handle that is closed is
not one whose address has become another's, and is not closed for good before its image has been
initialised. -/
def Images.Settled {A : Type*} (s : Images A) : ImageLabel A → Prop
  | .dlopen _ path _ =>
    ∀ p ∈ (path.bind s.named).toList, .initEnd p.image ∈ s.log
  | .dlclose _ h meant =>
    ∀ p ∈ (s.at_ h).toList, p.image = meant ∧ (p.refs ≤ 1 → .initEnd p.image ∈ s.log)
  | .next _ => True

instance {A : Type*} (s : Images A) (l : ImageLabel A) : Decidable (s.Settled l) := by
  unfold Images.Settled
  split <;> infer_instance

/-! ## The invariant -/

/-- The image an event is about. -/
def ImageEvent.image : ImageEvent → ℕ
  | .placed i | .ref i | .unref i | .removed i | .initBegin i | .initEnd i | .returned i _ => i
  | .finalBegin i | .finalEnd i | .unloaded i | .closed i _ => i

/-- Which of the two, initialising and finalising an image, an event is part of. -/
def ImageEvent.part : ImageEvent → Option (Bool × ℕ)
  | .initBegin i | .initEnd i => some (true, i)
  | .finalBegin i | .finalEnd i | .unloaded i => some (false, i)
  | _ => none

/-- Which of the two an activation is the one to do. -/
def ImagePc.part : ImagePc → Option (Bool × ℕ)
  | .placed _ i | .initialising _ i => some (true, i)
  | .removed _ i | .finalising _ i | .finalised _ i => some (false, i)
  | _ => none

/-- The address an activation will give back. -/
def ImagePc.gives : ImagePc → Option ℕ
  | .removed h _ | .finalising h _ | .finalised h _ | .unloaded h _ => some h
  | _ => none

/-- What has happened to an image where an activation has it in hand. -/
def ImagePc.Ok (log : List ImageEvent) : ImagePc → Prop
  | .idle | .unloaded _ _ => True
  | .placed _ i => .placed i ∈ log ∧ .initBegin i ∉ log ∧ .initEnd i ∉ log
  | .initialising _ i => .placed i ∈ log ∧ .initBegin i ∈ log ∧ .initEnd i ∉ log
  | .returning _ i => .placed i ∈ log ∧ .initEnd i ∈ log
  | .removed _ i => .placed i ∈ log ∧ .removed i ∈ log ∧ .finalBegin i ∉ log ∧ .finalEnd i ∉ log ∧
      .unloaded i ∉ log
  | .finalising _ i => .placed i ∈ log ∧ .removed i ∈ log ∧ .finalBegin i ∈ log ∧
      .finalEnd i ∉ log ∧ .unloaded i ∉ log
  | .finalised _ i => .placed i ∈ log ∧ .removed i ∈ log ∧ .finalEnd i ∈ log ∧ .unloaded i ∉ log

/-- An event of another part leaves what is said of an activation as it is. -/
theorem ImagePc.Ok.snoc {log : List ImageEvent} {pc : ImagePc} {e : ImageEvent} (h : pc.Ok log)
    (hpart : ∀ x, e.part = some x → pc.part ≠ some x) : pc.Ok (log ++ [e]) := by
  cases pc <;> cases e <;>
    simp_all [ImagePc.Ok, ImagePc.part, ImageEvent.part, eq_comm]

/-- An activation that has an image in hand has it placed. -/
theorem ImagePc.Ok.placed_mem {log : List ImageEvent} {pc : ImagePc} {x : Bool × ℕ}
    (h : pc.Ok log) (hx : pc.part = some x) : .placed x.2 ∈ log := by
  cases pc <;> simp_all [ImagePc.Ok, ImagePc.part] <;> (subst hx; simp_all)

/-- An activation that finalises an image has it removed. -/
theorem ImagePc.Ok.removed_mem {log : List ImageEvent} {pc : ImagePc} {i : ℕ}
    (h : pc.Ok log) (hx : pc.part = some (false, i)) : .removed i ∈ log := by
  cases pc <;> simp_all [ImagePc.Ok, ImagePc.part]

/-- What holds of an entry of the list. -/
structure EntryOk (live : Finset ℕ) (log : List ImageEvent) (p : PlacedImage) : Prop where
  placed : .placed p.image ∈ log
  open_ : .removed p.image ∉ log
  live : p.handle ∈ live
  pos : 0 < p.refs
  refs : log.count (.ref p.image) = log.count (.unref p.image) + p.refs

/-- What holds of an image that was closed for good. -/
structure ClosedOk (log : List ImageEvent) (i : ℕ) : Prop where
  initialised : .initEnd i ∈ log
  refs : log.count (.ref i) = log.count (.unref i)

namespace Images

variable {A : Type*}

structure Inv (s : Images A) : Prop where
  orderly : History.Always Orderly s.log
  known : ∀ e ∈ s.log, .placed e.image ∈ s.log
  entries : ∀ p ∈ s.list, EntryOk s.live s.log p
  apart : s.list.Pairwise fun p q => p.handle ≠ q.handle ∧ p.image ≠ q.image
  closed : ∀ i, .removed i ∈ s.log → ClosedOk s.log i
  finals : ∀ e ∈ s.log, ∀ i, e.part = some (false, i) → .removed i ∈ s.log
  ok : ∀ a, (s.pc a).Ok s.log
  part : ∀ a b x, (s.pc a).part = some x → (s.pc b).part = some x → a = b
  gives : ∀ a h, (s.pc a).gives = some h → h ∈ s.live ∧ ∀ p ∈ s.list, p.handle ≠ h
  once : ∀ a b h, (s.pc a).gives = some h → (s.pc b).gives = some h → a = b

theorem inv_start : (start : Images A).Inv where
  orderly := History.always_nil _
  known := by simp [start]
  entries := by simp [start]
  apart := List.Pairwise.nil
  closed := by simp [start]
  finals := by simp [start]
  ok a := trivial
  part a b x h := by cases h
  gives a h he := by cases he
  once a b h he := by cases he

variable [DecidableEq A] {s : Images A} {a : A}

/-- An event that is none of the list's. -/
def quiet : ImageEvent → Bool
  | .initBegin _ | .initEnd _ | .returned _ _ | .finalBegin _ | .finalEnd _ | .unloaded _ => true
  | .closed _ _ => true
  | _ => false

theorem entryOk_quiet {live : Finset ℕ} {log : List ImageEvent} {p : PlacedImage} {e : ImageEvent}
    (h : EntryOk live log p) (he : quiet e = true) : EntryOk live (log ++ [e]) p := by
  obtain ⟨h₁, h₂, h₃, h₄, h₅⟩ := h
  cases e <;> simp_all [Images.quiet] <;> constructor <;> simp_all [List.count_append]

theorem closedOk_quiet {log : List ImageEvent} {i : ℕ} {e : ImageEvent} (h : ClosedOk log i)
    (he : quiet e = true) : ClosedOk (log ++ [e]) i := by
  obtain ⟨h₁, h₂⟩ := h
  cases e <;> simp_all [Images.quiet] <;> constructor <;> simp_all [List.count_append]

theorem removed_of_quiet {log : List ImageEvent} {i : ℕ} {e : ImageEvent} (he : quiet e = true)
    (h : .removed i ∈ log ++ [e]) : .removed i ∈ log := by
  rcases List.mem_append.mp h with h | h
  · exact h
  · obtain rfl := List.mem_singleton.mp h
    cases he

theorem known_snoc {log : List ImageEvent} {e : ImageEvent}
    (h : ∀ e ∈ log, ImageEvent.placed e.image ∈ log) (he : .placed e.image ∈ log) :
    ∀ e' ∈ log ++ [e], ImageEvent.placed e'.image ∈ log ++ [e] := by
  intro e' he'
  rcases List.mem_append.mp he' with he' | he'
  · exact List.mem_append_left _ (h e' he')
  · obtain rfl := List.mem_singleton.mp he'
    exact List.mem_append_left _ he

theorem finals_snoc {log : List ImageEvent} {e : ImageEvent}
    (h : ∀ e ∈ log, ∀ i, e.part = some (false, i) → ImageEvent.removed i ∈ log)
    (he : ∀ i, e.part = some (false, i) → .removed i ∈ log) :
    ∀ e' ∈ log ++ [e], ∀ i, e'.part = some (false, i) → ImageEvent.removed i ∈ log ++ [e] := by
  intro e' he' i hi
  rcases List.mem_append.mp he' with he' | he'
  · exact List.mem_append_left _ (h e' he' i hi)
  · obtain rfl := List.mem_singleton.mp he'
    exact List.mem_append_left _ (he i hi)

/-- An activation goes on with what it has in hand, outside the lock. -/
theorem Inv.turn (h : s.Inv) {e : ImageEvent} {pc : ImagePc} (he : Orderly s.log e)
    (hquiet : quiet e = true) (hknown : .placed e.image ∈ s.log)
    (howner : ∀ x, e.part = some x → (s.pc a).part = some x)
    (hpart : ∀ x, pc.part = some x → (s.pc a).part = some x)
    (hgives : ∀ x, pc.gives = some x → (s.pc a).gives = some x)
    (hok : pc.Ok (s.log ++ [e])) : ((s.say e).goto a pc).Inv := by
  -- what was true of a party is true of the one that goes on
  have hold : ∀ {β : Type} (f : ImagePc → Option β),
      (∀ x, f pc = some x → f (s.pc a) = some x) →
      ∀ b x, f (Function.update s.pc a pc b) = some x → f (s.pc b) = some x := by
    intro β f hf b x hx
    by_cases hb : b = a
    · subst hb
      rw [Function.update_self] at hx
      exact hf x hx
    · rwa [Function.update_of_ne hb] at hx
  refine ⟨History.always_snoc.mpr ⟨h.orderly, he⟩, known_snoc h.known hknown,
    fun p hp => entryOk_quiet (h.entries p hp) hquiet, h.apart,
    fun i hi => closedOk_quiet (h.closed i (removed_of_quiet hquiet hi)) hquiet,
    finals_snoc h.finals fun i hi => (h.ok a).removed_mem (howner _ hi), fun b => ?_, ?_, ?_, ?_⟩
  · change (Function.update s.pc a pc b).Ok (s.log ++ [e])
    by_cases hb : b = a
    · subst hb
      rwa [Function.update_self]
    · rw [Function.update_of_ne hb]
      refine (h.ok b).snoc fun x hx hbx => hb ?_
      exact h.part b a x hbx (howner x hx)
  · exact fun b c x hb hc => h.part b c x (hold _ hpart b x hb) (hold _ hpart c x hc)
  · exact fun b x hb => h.gives b x (hold _ hgives b x hb)
  · exact fun b c x hb hc => h.once b c x (hold _ hgives b x hb) (hold _ hgives c x hc)

/-- What an activation does outside the lock keeps the invariant. -/
theorem Inv.next {t : Images A} (h : s.Inv) (hs : s.step (.next a) = some t) : t.Inv := by
  have hok := h.ok a
  simp only [Images.step] at hs
  cases hpc : s.pc a with
  | idle => simp [hpc] at hs
  | placed hd i =>
    obtain rfl : _ = t := by simpa [hpc] using hs
    rw [hpc] at hok
    obtain ⟨hp, hb, he⟩ := hok
    exact h.turn ⟨hp, hb⟩ rfl hp (by simp [hpc, ImageEvent.part, ImagePc.part])
      (by simp [hpc, ImagePc.part]) (by simp [ImagePc.gives])
      (by simp [ImagePc.Ok, hp, he])
  | initialising hd i =>
    obtain rfl : _ = t := by simpa [hpc] using hs
    rw [hpc] at hok
    obtain ⟨hp, hb, he⟩ := hok
    exact h.turn ⟨hb, he⟩ rfl hp (by simp [hpc, ImageEvent.part, ImagePc.part])
      (by simp [ImagePc.part]) (by simp [ImagePc.gives]) (by simp [ImagePc.Ok, hp])
  | returning hd i =>
    obtain rfl : _ = t := by simpa [hpc] using hs
    rw [hpc] at hok
    obtain ⟨hp, he⟩ := hok
    exact h.turn he rfl hp (by simp [ImageEvent.part]) (by simp [ImagePc.part])
      (by simp [ImagePc.gives]) trivial
  | removed hd i =>
    obtain rfl : _ = t := by simpa [hpc] using hs
    rw [hpc] at hok
    obtain ⟨hp, hr, hb, he, hu⟩ := hok
    obtain ⟨hinit, hrefs⟩ := h.closed i hr
    exact h.turn ⟨hr, hinit, hrefs, hb⟩ rfl hp (by simp [hpc, ImageEvent.part, ImagePc.part])
      (by simp [hpc, ImagePc.part]) (by simp [hpc, ImagePc.gives])
      (by simp [ImagePc.Ok, hp, hr, he, hu])
  | finalising hd i =>
    obtain rfl : _ = t := by simpa [hpc] using hs
    rw [hpc] at hok
    obtain ⟨hp, hr, hb, he, hu⟩ := hok
    exact h.turn ⟨hb, he⟩ rfl hp (by simp [hpc, ImageEvent.part, ImagePc.part])
      (by simp [hpc, ImagePc.part]) (by simp [hpc, ImagePc.gives])
      (by simp [ImagePc.Ok, hp, hr, hu])
  | finalised hd i =>
    obtain rfl : _ = t := by simpa [hpc] using hs
    rw [hpc] at hok
    obtain ⟨hp, hr, he, hu⟩ := hok
    obtain ⟨hinit, hrefs⟩ := h.closed i hr
    exact h.turn ⟨hinit, he, hrefs, hu⟩ rfl hp (by simp [hpc, ImageEvent.part, ImagePc.part])
      (by simp [ImagePc.part]) (by simp [hpc, ImagePc.gives]) trivial
  | unloaded hd i =>
    -- the entry's memory goes back, and its address with it
    obtain rfl : _ = t := by simpa [hpc] using hs
    have hmine : ∀ b, b ≠ a → (s.pc b).gives ≠ some hd := fun b hb hg =>
      hb (h.once b a hd hg (by rw [hpc]; rfl))
    have hnot := (h.gives a hd (by rw [hpc]; rfl)).2
    have hsame : ∀ {β : Type} (f : ImagePc → Option β), f .idle = none →
        ∀ b x, f (Function.update s.pc a .idle b) = some x → b ≠ a ∧ f (s.pc b) = some x := by
      intro β f hf b x hx
      by_cases hb : b = a
      · subst hb
        rw [Function.update_self, hf] at hx
        cases hx
      · exact ⟨hb, by rwa [Function.update_of_ne hb] at hx⟩
    refine ⟨h.orderly, h.known, fun p hp => ?_, h.apart, h.closed, h.finals,
      fun b => ?_, ?_, ?_, ?_⟩
    · obtain ⟨h₁, h₂, h₃, h₄, h₅⟩ := h.entries p hp
      exact ⟨h₁, h₂, Finset.mem_erase.mpr ⟨hnot p hp, h₃⟩, h₄, h₅⟩
    · change (Function.update s.pc a .idle b).Ok s.log
      by_cases hb : b = a
      · subst hb
        rw [Function.update_self]
        trivial
      · rw [Function.update_of_ne hb]
        exact h.ok b
    · exact fun b c x hb hc => h.part b c x (hsame ImagePc.part rfl b x hb).2
        (hsame ImagePc.part rfl c x hc).2
    · intro b x hb
      obtain ⟨hne, hg⟩ := hsame ImagePc.gives rfl b x hb
      refine ⟨Finset.mem_erase.mpr ⟨?_, (h.gives b x hg).1⟩, (h.gives b x hg).2⟩
      rintro rfl
      exact hmine b hne hg
    · exact fun b c x hb hc => h.once b c x (hsame ImagePc.gives rfl b x hb).2
        (hsame ImagePc.gives rfl c x hc).2

/-! ## The locked sections -/

theorem mem_setRefs {list : List PlacedImage} {h refs : ℕ} {q : PlacedImage}
    (hq : q ∈ setRefs list h refs) :
    q ∈ list ∧ q.handle ≠ h ∨ ∃ p ∈ list, p.handle = h ∧ q = { p with refs := refs } := by
  obtain ⟨p, hp, rfl⟩ := List.mem_map.mp hq
  split_ifs with hh
  · exact Or.inr ⟨p, hp, hh, rfl⟩
  · exact Or.inl ⟨hp, hh⟩

theorem pairwise_setRefs {list : List PlacedImage} (h refs : ℕ)
    (hp : list.Pairwise fun p q => p.handle ≠ q.handle ∧ p.image ≠ q.image) :
    (setRefs list h refs).Pairwise fun p q => p.handle ≠ q.handle ∧ p.image ≠ q.image := by
  have hsame : ∀ p : PlacedImage, (if p.handle = h then { p with refs := refs } else p).handle =
      p.handle ∧ (if p.handle = h then { p with refs := refs } else p).image = p.image := by
    intro p
    split_ifs <;> exact ⟨rfl, rfl⟩
  refine List.pairwise_map.mpr (hp.imp fun {p q} hpq => ?_)
  rw [(hsame p).1, (hsame p).2, (hsame q).1, (hsame q).2]
  exact hpq

omit [DecidableEq A] in
/-- Two entries of the list are the same, or neither their addresses nor their images are. -/
theorem Inv.apart_of_ne (h : s.Inv) {p q : PlacedImage} (hp : p ∈ s.list) (hq : q ∈ s.list)
    (hne : p ≠ q) : p.handle ≠ q.handle ∧ p.image ≠ q.image := by
  have : Std.Symm fun p q : PlacedImage => p.handle ≠ q.handle ∧ p.image ≠ q.image :=
    ⟨fun _ _ hpq => ⟨hpq.1.symm, hpq.2.symm⟩⟩
  exact h.apart.forall hp hq hne

omit [DecidableEq A] in
theorem Inv.eq_of_handle (h : s.Inv) {p q : PlacedImage} (hp : p ∈ s.list) (hq : q ∈ s.list)
    (hpq : p.handle = q.handle) : p = q := by
  by_contra hne
  exact (h.apart_of_ne hp hq hne).1 hpq

omit [DecidableEq A] in
theorem mem_of_at {h : ℕ} {p : PlacedImage} (hp : s.at_ h = some p) :
    p ∈ s.list ∧ p.handle = h :=
  ⟨List.mem_of_find?_eq_some hp, by simpa using List.find?_some hp⟩

omit [DecidableEq A] in
/-- A change of one entry's count, recorded as a reference taken or given back. -/
theorem Inv.recount (h : s.Inv) {p : PlacedImage} (hp : p ∈ s.list) {refs : ℕ} (hpos : 0 < refs)
    {e : ImageEvent} (he : e = .ref p.image ∧ refs = p.refs + 1 ∨
      e = .unref p.image ∧ refs + 1 = p.refs) :
    ({ s with list := setRefs s.list p.handle refs }.say e).Inv := by
  obtain ⟨hplaced, hopen, hlive, -, hrefs⟩ := h.entries p hp
  have himage : e.image = p.image := by rcases he with ⟨rfl, -⟩ | ⟨rfl, -⟩ <;> rfl
  have hpart : e.part = none := by rcases he with ⟨rfl, -⟩ | ⟨rfl, -⟩ <;> rfl
  have horderly : Orderly s.log e := by
    rcases he with ⟨rfl, -⟩ | ⟨rfl, -⟩
    · exact hopen
    · trivial
  -- the counts of other images are as they were
  have hcount : ∀ i, i ≠ p.image → (s.log ++ [e]).count (.ref i) = s.log.count (.ref i) ∧
      (s.log ++ [e]).count (.unref i) = s.log.count (.unref i) := by
    intro i hi
    rcases he with ⟨rfl, -⟩ | ⟨rfl, -⟩ <;> simp [List.count_append, hi.symm]
  have hremoved : ∀ i, .removed i ∈ s.log ++ [e] → .removed i ∈ s.log := by
    intro i hi
    rcases List.mem_append.mp hi with hi | hi
    · exact hi
    · rcases he with ⟨rfl, -⟩ | ⟨rfl, -⟩ <;> simp at hi
  refine ⟨History.always_snoc.mpr ⟨h.orderly, horderly⟩,
    known_snoc h.known (by rw [himage]; exact hplaced), fun q hq => ?_,
    pairwise_setRefs _ _ h.apart, fun i hi => ?_,
    finals_snoc h.finals fun i hi => (by rw [hpart] at hi; cases hi), fun b => ?_, h.part,
    fun b x hb => ?_, h.once⟩
  · rcases mem_setRefs hq with ⟨hq, hne⟩ | ⟨p', hp', hh, rfl⟩
    · obtain ⟨h₁, h₂, h₃, h₄, h₅⟩ := h.entries q hq
      have hi := (h.apart_of_ne hq hp fun he => hne (he ▸ rfl)).2
      obtain ⟨hr, hu⟩ := hcount q.image hi
      refine ⟨List.mem_append_left _ h₁, fun hm => h₂ (hremoved _ hm), h₃, h₄, ?_⟩
      change (s.log ++ [e]).count _ = (s.log ++ [e]).count _ + _
      rw [hr, hu, h₅]
    · obtain rfl := h.eq_of_handle hp' hp hh
      refine ⟨List.mem_append_left _ hplaced, fun hm => hopen (hremoved _ hm), hlive, hpos, ?_⟩
      change (s.log ++ [e]).count (.ref p'.image) = (s.log ++ [e]).count (.unref p'.image) + refs
      rcases he with ⟨rfl, rfl⟩ | ⟨rfl, he⟩ <;> simp [List.count_append] <;> omega
  · have hr := hremoved i hi
    obtain ⟨hinit, hc⟩ := h.closed i hr
    obtain ⟨hcr, hcu⟩ := hcount i (by rintro rfl; exact hopen hr)
    refine ⟨List.mem_append_left _ hinit, ?_⟩
    change (s.log ++ [e]).count _ = (s.log ++ [e]).count _
    rw [hcr, hcu, hc]
  · exact (h.ok b).snoc fun x hx => by rw [hpart] at hx; cases hx
  · refine ⟨(h.gives b x hb).1, fun q hq => ?_⟩
    rcases mem_setRefs hq with ⟨hq, -⟩ | ⟨p', hp', -, rfl⟩
    · exact (h.gives b x hb).2 q hq
    · exact (h.gives b x hb).2 p' hp'

/-- An idle activation takes an image in hand that no other activation has. -/
theorem Inv.take (h : s.Inv) (hidle : s.pc a = .idle) {pc : ImagePc} (hok : pc.Ok s.log)
    (hpart : ∀ b x, pc.part = some x → (s.pc b).part ≠ some x)
    (hgives : ∀ x, pc.gives = some x → x ∈ s.live ∧ ∀ p ∈ s.list, p.handle ≠ x)
    (honce : ∀ b x, pc.gives = some x → (s.pc b).gives ≠ some x) : (s.goto a pc).Inv := by
  have hcases : ∀ {β : Type} (f : ImagePc → Option β) b x,
      f (Function.update s.pc a pc b) = some x →
      b = a ∧ f pc = some x ∨ b ≠ a ∧ f (s.pc b) = some x := by
    intro β f b x hx
    by_cases hb : b = a
    · subst hb
      rw [Function.update_self] at hx
      exact Or.inl ⟨rfl, hx⟩
    · rw [Function.update_of_ne hb] at hx
      exact Or.inr ⟨hb, hx⟩
  refine ⟨h.orderly, h.known, h.entries, h.apart, h.closed, h.finals, fun b => ?_,
    fun b c x hb hc => ?_, fun b x hb => ?_, fun b c x hb hc => ?_⟩
  · change (Function.update s.pc a pc b).Ok s.log
    by_cases hb : b = a
    · subst hb
      rwa [Function.update_self]
    · rw [Function.update_of_ne hb]
      exact h.ok b
  · rcases hcases _ b x hb with ⟨rfl, hb'⟩ | ⟨-, hb'⟩ <;>
      rcases hcases _ c x hc with ⟨rfl, hc'⟩ | ⟨-, hc'⟩
    · rfl
    · exact absurd hc' (hpart c x hb')
    · exact absurd hb' (hpart b x hc')
    · exact h.part b c x hb' hc'
  · rcases hcases _ b x hb with ⟨rfl, hb'⟩ | ⟨-, hb'⟩
    · exact hgives x hb'
    · exact h.gives b x hb'
  · rcases hcases _ b x hb with ⟨rfl, hb'⟩ | ⟨-, hb'⟩ <;>
      rcases hcases _ c x hc with ⟨rfl, hc'⟩ | ⟨-, hc'⟩
    · rfl
    · exact absurd hc' (honce c x hb')
    · exact absurd hb' (honce b x hc')
    · exact h.once b c x hb' hc'

omit [DecidableEq A] in
/-- Nothing was done with an image that is new. -/
theorem Inv.fresh (h : s.Inv) {i : ℕ} (hnew : .placed i ∉ s.log) {e : ImageEvent} (he : e ∈ s.log) :
    e.image ≠ i := by
  rintro rfl
  exact hnew (h.known e he)

/-- A new image is placed, with one reference. -/
theorem Inv.place (h : s.Inv) (hidle : s.pc a = .idle) {i hd : ℕ} {path : Text}
    (hnew : .placed i ∉ s.log) (hfree : hd ∉ s.live) :
    ((({ s with list := ⟨hd, i, path, 1⟩ :: s.list, live := insert hd s.live }.say
      (.placed i)).say (.ref i)).goto a (.placed hd i)).Inv := by
  have hcount : ∀ e : ImageEvent, e.image = i → s.log.count e = 0 := fun e he =>
    List.count_eq_zero.mpr fun hm => h.fresh hnew hm he
  have hplaced : (({ s with
      list := ⟨hd, i, path, 1⟩ :: s.list
      live := insert hd s.live } : Images A).say
      (.placed i) |>.say (.ref i)).Inv := by
    refine ⟨History.always_snoc.mpr ⟨History.always_snoc.mpr ⟨h.orderly, hnew⟩, ?_⟩, ?_, ?_, ?_, ?_,
      finals_snoc (finals_snoc h.finals (by simp [ImageEvent.part])) (by simp [ImageEvent.part]),
      ?_, h.part, ?_, h.once⟩
    · intro hm
      have hm' : .removed i ∈ s.log := by simpa [say] using hm
      exact h.fresh hnew hm' rfl
    · intro e he
      change .placed e.image ∈ s.log ++ [.placed i] ++ [.ref i]
      have he' : e ∈ s.log ∨ e = .placed i ∨ e = .ref i := by
        simpa [say, or_assoc] using he
      rcases he' with he | rfl | rfl
      · exact List.mem_append_left _ (List.mem_append_left _ (h.known e he))
      · simp [ImageEvent.image]
      · simp [ImageEvent.image]
    · intro p hp
      rcases List.mem_cons.mp hp with rfl | hp
      · refine ⟨by simp [say], ?_, Finset.mem_insert_self _ _, Nat.one_pos, ?_⟩
        · intro hm
          have hm' : .removed i ∈ s.log := by simpa [say] using hm
          exact h.fresh hnew hm' rfl
        · simp [say, List.count_append, hcount (.ref i) rfl, hcount (.unref i) rfl]
      · obtain ⟨h₁, h₂, h₃, h₄, h₅⟩ := h.entries p hp
        have hne : i ≠ p.image := by
          rintro rfl
          exact hnew h₁
        refine ⟨by simp [say, h₁], by simpa [say] using h₂, Finset.mem_insert_of_mem h₃, h₄, ?_⟩
        simpa [say, List.count_append, hne] using h₅
    · refine List.pairwise_cons.mpr ⟨fun q hq => ⟨?_, ?_⟩, h.apart⟩
      · rintro rfl
        exact hfree (h.entries q hq).live
      · rintro rfl
        exact hnew (h.entries q hq).placed
    · intro j hj
      have hj' : .removed j ∈ s.log := by simpa [say] using hj
      obtain ⟨hinit, hc⟩ := h.closed j hj'
      have hne : i ≠ j := fun he => h.fresh hnew hj' he.symm
      exact ⟨by simp [say, hinit], by simpa [say, List.count_append, hne] using hc⟩
    · exact fun b => ((h.ok b).snoc (by simp [ImageEvent.part])).snoc (by simp [ImageEvent.part])
    · intro b x hb
      obtain ⟨hx, hlist⟩ := h.gives b x hb
      refine ⟨Finset.mem_insert_of_mem hx, fun p hp => ?_⟩
      rcases List.mem_cons.mp hp with rfl | hp
      · rintro rfl
        exact hfree hx
      · exact hlist p hp
  refine hplaced.take hidle ?_ ?_ ?_ ?_
  · have hb : .initBegin i ∉ s.log := fun hm => h.fresh hnew hm rfl
    have he : .initEnd i ∉ s.log := fun hm => h.fresh hnew hm rfl
    simp [ImagePc.Ok, say, hb, he]
  · rintro b x hx hbx
    obtain rfl : (true, i) = x := by simpa [ImagePc.part] using hx
    exact hnew ((h.ok b).placed_mem hbx)
  all_goals simp [ImagePc.gives]

/-- `dlopen` of an image that is initialised, or that it places, keeps the invariant. -/
theorem Inv.dlopen {t : Images A} {path : Option Text} {answer : Option (ℕ × ℕ)} (h : s.Inv)
    (hsettled : s.Settled (.dlopen a path answer))
    (hs : s.step (.dlopen a path answer) = some t) : t.Inv := by
  simp only [Images.step] at hs
  split_ifs at hs with hidle
  rw [ne_eq, not_not] at hidle
  cases path with
  | none =>
    cases hs
    exact h
  | some path =>
    cases hp : s.named path with
    | some p =>
      -- found: one reference more
      simp only [hp] at hs
      split_ifs at hs with hmax
      cases hs
      have hmem : p ∈ s.list := List.mem_of_find?_eq_some hp
      have hinit : .initEnd p.image ∈ s.log := hsettled p (by simp [hp])
      refine (h.recount hmem (Nat.succ_pos _) (Or.inl ⟨rfl, rfl⟩)).take hidle ?_ ?_ ?_ ?_
      · exact ⟨List.mem_append_left _ (h.entries p hmem).placed, List.mem_append_left _ hinit⟩
      all_goals simp [ImagePc.part, ImagePc.gives]
    | none =>
      cases answer with
      | none =>
        simp only [hp] at hs
        cases hs
        exact h
      | some x =>
        obtain ⟨i, hd⟩ := x
        simp only [hp] at hs
        split_ifs at hs with hmay
        cases hs
        obtain ⟨hnew, hfree⟩ := hmay
        exact h.place hidle hnew hfree

omit [DecidableEq A] in
/-- An answer to `dlclose` is recorded. -/
theorem Inv.answer (h : s.Inv) {meant : ℕ} {touched : Option ℕ} (hknown : .placed meant ∈ s.log)
    (he : .removed meant ∈ s.log → touched = none) : (s.say (.closed meant touched)).Inv :=
  ⟨History.always_snoc.mpr ⟨h.orderly, he⟩, known_snoc h.known hknown,
    fun p hp => entryOk_quiet (h.entries p hp) rfl, h.apart,
    fun i hi => closedOk_quiet (h.closed i (removed_of_quiet rfl hi)) rfl,
    finals_snoc h.finals (by simp [ImageEvent.part]),
    fun b => (h.ok b).snoc (by simp [ImageEvent.part]), h.part, h.gives, h.once⟩

/-- The last reference is given back, and the entry is removed. -/
theorem Inv.remove (h : s.Inv) (hidle : s.pc a = .idle) {p : PlacedImage} (hp : p ∈ s.list)
    (hrefs : p.refs = 1) (hinit : .initEnd p.image ∈ s.log) :
    (((({ s with list := s.list.filter (·.handle ≠ p.handle) }.say (.unref p.image)).say
      (.removed p.image)).goto a (.removed p.handle p.image))).Inv := by
  obtain ⟨hplaced, hopen, hlive, -, hcount⟩ := h.entries p hp
  -- the entries that stay are of other images
  have hstay : ∀ q ∈ s.list.filter (·.handle ≠ p.handle), q ∈ s.list ∧ p.image ≠ q.image ∧
      q.handle ≠ p.handle := by
    intro q hq
    obtain ⟨hq, hne⟩ := List.mem_filter.mp hq
    have hne' : q.handle ≠ p.handle := by simpa using hne
    exact ⟨hq, (h.apart_of_ne hp hq fun he => hne' (he ▸ rfl)).2, hne'⟩
  have hcounts : ∀ i, p.image ≠ i →
      (s.log ++ [ImageEvent.unref p.image] ++ [ImageEvent.removed p.image]).count (.ref i) =
        s.log.count (.ref i) ∧
      (s.log ++ [ImageEvent.unref p.image] ++ [ImageEvent.removed p.image]).count (.unref i) =
        s.log.count (.unref i) := by
    intro i hi
    simp [List.count_append, hi]
  have hremoved : (({ s with list := s.list.filter (·.handle ≠ p.handle) } : Images A).say
      (.unref p.image) |>.say (.removed p.image)).Inv := by
    refine ⟨History.always_snoc.mpr ⟨History.always_snoc.mpr ⟨h.orderly, trivial⟩, ?_⟩, ?_, ?_,
      h.apart.filter _, ?_,
      finals_snoc (finals_snoc h.finals (by simp [ImageEvent.part])) (by simp [ImageEvent.part]),
      ?_, h.part, ?_, h.once⟩
    · simpa [Orderly, say] using hopen
    · refine known_snoc (known_snoc h.known hplaced) (List.mem_append_left _ hplaced)
    · intro q hq
      obtain ⟨hq, hne, -⟩ := hstay q hq
      obtain ⟨h₁, h₂, h₃, h₄, h₅⟩ := h.entries q hq
      obtain ⟨hr, hu⟩ := hcounts q.image hne
      refine ⟨by simp [say, h₁], by simp [say, h₂, hne.symm], h₃, h₄, ?_⟩
      exact hr.trans (h₅.trans (by rw [← hu]; rfl))
    · intro i hi
      by_cases hpi : p.image = i
      · subst hpi
        refine ⟨by simp [say, hinit], ?_⟩
        simp [say, List.count_append]
        omega
      · have hi' : .removed i ∈ s.log := by
          have : .removed i ∈ s.log ∨ i = p.image := by simpa [say] using hi
          exact this.resolve_right fun he => hpi he.symm
        obtain ⟨hin, hc⟩ := h.closed i hi'
        obtain ⟨hr, hu⟩ := hcounts i hpi
        exact ⟨by simp [say, hin], hr.trans (hc.trans hu.symm)⟩
    · exact fun b => ((h.ok b).snoc (by simp [ImageEvent.part])).snoc (by simp [ImageEvent.part])
    · exact fun b x hb => ⟨(h.gives b x hb).1, fun q hq => (h.gives b x hb).2 q (hstay q hq).1⟩
  refine hremoved.take hidle ?_ ?_ ?_ ?_
  · -- nothing was finalised of an image that was open
    have hnone : ∀ e : ImageEvent, e.part = some (false, p.image) → e ∉ s.log := fun e he hm =>
      hopen (h.finals e hm _ he)
    simp [ImagePc.Ok, say, hplaced, hnone (.finalBegin p.image) rfl, hnone (.finalEnd p.image) rfl,
      hnone (.unloaded p.image) rfl]
  · rintro b x hx hbx
    obtain rfl : (false, p.image) = x := by simpa [ImagePc.part] using hx
    exact hopen ((h.ok b).removed_mem hbx)
  · rintro x hx
    obtain rfl : p.handle = x := by simpa [ImagePc.gives] using hx
    exact ⟨hlive, fun q hq => (hstay q hq).2.2⟩
  · rintro b x hx hb
    obtain rfl : p.handle = x := by simpa [ImagePc.gives] using hx
    exact (h.gives b _ hb).2 p hp rfl

/-- `dlclose` of a handle that is its image's, or nobody's, keeps the invariant. -/
theorem Inv.dlclose {t : Images A} {hd meant : ℕ} (h : s.Inv)
    (hsettled : s.Settled (.dlclose a hd meant)) (hs : s.step (.dlclose a hd meant) = some t) :
    t.Inv := by
  simp only [Images.step] at hs
  split_ifs at hs with hbad
  rw [not_or, not_not, not_not] at hbad
  obtain ⟨hidle, hret⟩ := hbad
  have hknown : .placed meant ∈ s.log := h.known _ hret
  cases hp : s.at_ hd with
  | none =>
    simp only [hp] at hs
    cases hs
    exact h.answer hknown fun _ => rfl
  | some p =>
    obtain ⟨hmem, rfl⟩ := mem_of_at hp
    obtain ⟨rfl, hinit⟩ := hsettled p (by simp [hp])
    have hopen := (h.entries p hmem).open_
    have hans : (s.say (.closed p.image (some p.image))).Inv :=
      h.answer hknown fun hr => absurd hr hopen
    simp only [hp] at hs
    by_cases hrefs : 1 < p.refs
    · rw [if_pos hrefs] at hs
      cases hs
      exact hans.recount hmem (by omega) (Or.inr ⟨rfl, by omega⟩)
    · rw [if_neg hrefs] at hs
      cases hs
      have hone : p.refs = 1 := by
        have := (h.entries p hmem).pos
        omega
      exact hans.remove hidle hmem hone (List.mem_append_left _ (hinit (by omega)))

/-- A step that meets the condition keeps the invariant. -/
theorem Inv.step {t : Images A} {l : ImageLabel A} (h : s.Inv) (hsettled : s.Settled l)
    (hs : s.step l = some t) : t.Inv := by
  cases l with
  | dlopen a path answer => exact h.dlopen hsettled hs
  | dlclose a hd meant => exact h.dlclose hsettled hs
  | next a => exact h.next hs

/-- **An image is initialised before it is used and finalised after.** For any number of
activations, in every run in which no call finds an image whose initialisers are still running, or
closes a handle whose address has become another's, every event is in order. -/
theorem images_orderly {s : Images A}
    (h : Reachable (restrict Images.step Images.Settled) (Images.start : Images A) s) :
    History.Always Orderly s.log := by
  refine (h.invariant (I := Images.Inv) inv_start fun u l v hu hs => ?_).orderly
  obtain ⟨hsettled, hs⟩ := restrict_eq_some.mp hs
  exact hu.step hsettled hs

end Images

/-- One image, opened twice and closed three times. -/
def openedTwice : List (ImageLabel ℕ) :=
  [.dlopen 0 (some ['a']) (some (1, 64)), .next 0, .next 0, .next 0,
    .dlopen 1 (some ['a']) none, .next 1, .dlclose 0 64 1, .dlclose 1 64 1,
    .next 1, .next 1, .next 1, .next 1, .dlclose 0 64 1]

theorem images_orderly_openedTwice :
    ∃ s, run (restrict Images.step Images.Settled) Images.start openedTwice = some s ∧
      s.log = [.placed 1, .ref 1, .initBegin 1, .initEnd 1, .returned 1 64, .ref 1, .returned 1 64,
        .closed 1 (some 1), .unref 1, .closed 1 (some 1), .unref 1, .removed 1, .finalBegin 1,
        .finalEnd 1, .unloaded 1, .closed 1 none] ∧
      History.Always Orderly s.log := by
  have hrun : (run (restrict Images.step Images.Settled) Images.start openedTwice).map
      Images.log = some [.placed 1, .ref 1, .initBegin 1, .initEnd 1, .returned 1 64, .ref 1,
        .returned 1 64, .closed 1 (some 1), .unref 1, .closed 1 (some 1), .unref 1, .removed 1,
        .finalBegin 1, .finalEnd 1, .unloaded 1, .closed 1 none] := by decide +kernel
  obtain ⟨s, hs, hlog⟩ := Option.map_eq_some_iff.mp hrun
  exact ⟨s, hs, hlog, Images.images_orderly ⟨_, hs⟩⟩

/-- A second `dlopen` returns while the initialisers that the first started are running. -/
def openedEarly : List (ImageLabel ℕ) :=
  [.dlopen 0 (some ['a']) (some (1, 64)), .next 0, .dlopen 1 (some ['a']) none, .next 1]

/-- It is then closed for good, and unloaded, before they are complete. -/
def closedEarly : List (ImageLabel ℕ) :=
  openedEarly ++ [.dlclose 1 64 1, .dlclose 1 64 1, .next 1, .next 1, .next 1]

/-- A handle that was closed for good is closed again, when its address is another image's. -/
def closedAgain : List (ImageLabel ℕ) :=
  [.dlopen 0 (some ['a']) (some (1, 64)), .next 0, .next 0, .next 0, .dlclose 0 64 1,
    .next 0, .next 0, .next 0, .next 0, .dlopen 1 (some ['b']) (some (2, 64)), .next 1, .next 1,
    .next 1, .dlclose 0 64 1]

/-- Without the condition none of the three holds. -/
theorem images_out_of_order :
    (∃ s, run Images.step Images.start openedEarly = some s ∧
      s.log = [.placed 1, .ref 1, .initBegin 1, .ref 1, .returned 1 64] ∧
      ¬ History.Always Orderly s.log) ∧
    (∃ s, run Images.step Images.start closedEarly = some s ∧
      .unloaded 1 ∈ s.log ∧ .initEnd 1 ∉ s.log) ∧
    ∃ s, run Images.step Images.start closedAgain = some s ∧
      s.log.getLast? = some (.removed 2) ∧ .closed 1 (some 2) ∈ s.log := by
  have hopen : (run Images.step Images.start openedEarly).map Images.log =
      some [.placed 1, .ref 1, .initBegin 1, .ref 1, .returned 1 64] := by decide +kernel
  have hclose : (run Images.step Images.start closedEarly).map
      (fun s => decide (.unloaded 1 ∈ s.log ∧ .initEnd 1 ∉ s.log)) = some true := by decide +kernel
  have hagain : (run Images.step Images.start closedAgain).map
      (fun s => decide (s.log.getLast? = some (.removed 2) ∧ .closed 1 (some 2) ∈ s.log)) =
      some true := by decide +kernel
  obtain ⟨s, hs, hlog⟩ := Option.map_eq_some_iff.mp hopen
  obtain ⟨t, ht, htlog⟩ := Option.map_eq_some_iff.mp hclose
  obtain ⟨u, hu, hulog⟩ := Option.map_eq_some_iff.mp hagain
  refine ⟨⟨s, hs, hlog, fun horder => ?_⟩, ⟨t, ht, of_decide_eq_true htlog⟩,
    ⟨u, hu, of_decide_eq_true hulog⟩⟩
  -- what is returned last was not initialised before
  have hbad := horder [.placed 1, .ref 1, .initBegin 1, .ref 1] (.returned 1 64) [] hlog
  exact absurd hbad (by decide)

end OpenkalMusl
