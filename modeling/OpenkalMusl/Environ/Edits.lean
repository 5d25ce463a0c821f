import OpenkalMusl.Spawn.Vectors

/-!
# Edits of the named values

musl's `setenv`, `putenv`, `unsetenv` and `clearenv` (`src/env`) edit the array that `__environ`
points to. An entry of a name that is there is replaced in its place, and entries that are removed
have the others moved up, in the same array. A name that is not there needs an array of one entry
more: the array that was allocated last is reallocated, at the same address or another, and any
other is copied into a new one. Clearing leaves no array.

The entries are C strings that stay as they are while they are in the array. Who frees those that
leave it (`__env_rm_add`) is left out.

## Main definitions

* `Environ`: `__environ`, with what it points to, and `oldenv`
* `Environ.putenvInner`, `Environ.setenv`, …: the calls, with what the allocator answers
* `Edited`: what a call can do to the array

## Main results

* `Environ.edited_perform`: every call does one of these
-/

namespace OpenkalMusl

/-- An array of entries, and its address. The null pointer behind the last is not an entry. -/
structure EnvArray where
  addr : ℕ
  entries : List Text
  deriving DecidableEq

/-- `__environ`, and the array that `__putenv` allocated last. A null pointer is `none`. -/
structure Environ where
  environ : Option EnvArray
  oldenv : Option ℕ
  deriving DecidableEq

/-- The first entry that `p` holds of is replaced; `none` where there is none. -/
def replaceFirst (p : Text → Bool) (s : Text) : List Text → Option (List Text)
  | [] => none
  | e :: es => if p e then some (s :: es) else (replaceFirst p s es).map (e :: ·)

/-- `!strncmp(name, *e, l) && l[*e] == '='`, for a name of length `l`. -/
def IsEntryOf (name entry : Text) : Prop :=
  entry.take name.length = name ∧ entry[name.length]? = some '='

instance (name entry : Text) : Decidable (IsEntryOf name entry) :=
  inferInstanceAs (Decidable (_ ∧ _))

/-- A call, with what the allocator answers: whether there is memory for the string of `setenv`, and
the address of the array if one is asked for. -/
inductive EnvCall where
  | setenv (var : Option Text) (value : Text) (overwrite string : Bool) (array : Option ℕ)
  | putenv (s : Text) (array : Option ℕ)
  | unsetenv (name : Text)
  | clearenv

/-- What the allocator would answer for the array. -/
def EnvCall.array : EnvCall → Option ℕ
  | .setenv _ _ _ _ array | .putenv _ array => array
  | .unsetenv _ | .clearenv => none

namespace Environ

variable (e : Environ)

/-- The pointer. -/
def addr : Option ℕ := e.environ.map EnvArray.addr

/-- The entries, none where there is no array. -/
def entries : List Text := (e.environ.map EnvArray.entries).getD []

variable {e} in
theorem addr_eq {env : EnvArray} (h : e.environ = some env) : e.addr = some env.addr := by
  rw [addr, h]
  rfl

variable {e} in
theorem entries_eq {env : EnvArray} (h : e.environ = some env) : e.entries = env.entries := by
  rw [entries, h]
  rfl

/-- `getenv` of `okm_start.c`. While the initialisers of a snapshot run the environment is asked,
and `sealing` is what it would answer. -/
def getenv (sealing : Option (Text → Option Text)) (name : Text) : Option Text :=
  let l := (nameOf name).length
  if l = 0 ∨ l < name.length then none
  else
    match sealing with
    | some ask => ask name
    | none => (e.entries.find? fun entry => IsEntryOf name entry).map fun entry =>
        entry.drop (l + 1)

/-- `__putenv`, where `realloc` or `malloc`, if one is called, answers `array`. -/
def putenvInner (s : Text) (l : ℕ) (array : Option ℕ) : Environ × Except Errno Unit :=
  match e.environ.bind fun env =>
      (replaceFirst (fun entry => s.take (l + 1) = entry.take (l + 1)) s env.entries).map
        fun entries => { env with entries := entries } with
  | some env => ({ e with environ := some env }, .ok ())
  | none =>
    match array with
    | none => (e, .error .enomem)
    -- reallocated where `__environ == oldenv`, and copied where it is another
    | some a => ({ environ := some ⟨a, e.entries ++ [s]⟩, oldenv := some a }, .ok ())

/-- `unsetenv` -/
def unsetenv (name : Text) : Environ × Except Errno Unit :=
  let l := (nameOf name).length
  if l = 0 ∨ l < name.length then (e, .error .einval)
  else
    ({ e with
      environ := e.environ.map fun env =>
        { env with entries := env.entries.filter fun entry => ¬ IsEntryOf name entry } }, .ok ())

/-- `putenv` -/
def putenv (s : Text) (array : Option ℕ) : Environ × Except Errno Unit :=
  let l := (nameOf s).length
  if l = 0 ∨ ¬ l < s.length then e.unsetenv s else e.putenvInner s l array

/-- `setenv` -/
def setenv (sealing : Option (Text → Option Text)) (var : Option Text) (value : Text)
    (overwrite string : Bool) (array : Option ℕ) : Environ × Except Errno Unit :=
  match var with
  | none => (e, .error .einval)
  | some var =>
    let l1 := (nameOf var).length
    if l1 = 0 ∨ l1 < var.length then (e, .error .einval)
    else if !overwrite && (e.getenv sealing var).isSome then (e, .ok ())
    else if !string then (e, .error .enomem)
    else e.putenvInner (var ++ '=' :: value) l1 array

/-- `clearenv` -/
def clearenv : Environ × Except Errno Unit := ({ e with environ := none }, .ok ())

def perform (sealing : Option (Text → Option Text)) : EnvCall → Environ × Except Errno Unit
  | .setenv var value overwrite string array => e.setenv sealing var value overwrite string array
  | .putenv s array => e.putenv s array
  | .unsetenv name => e.unsetenv name
  | .clearenv => e.clearenv

/-- That the allocator may answer `a` for the array: the one of the start, at `store`, is not its
own, and what was allocated last is freed only after it is replaced. -/
def Allocates (store a : ℕ) : Prop := a ≠ store ∧ (e.addr ≠ e.oldenv → some a ≠ e.oldenv)

instance (store a : ℕ) : Decidable (e.Allocates store a) := inferInstanceAs (Decidable (_ ∧ _))

end Environ

/-! ## What a call can do -/

/-- What becomes of the array: it is as it was, one entry is replaced by another of its name, an
entry is added in an array at the address answered, entries are removed, or it is gone. -/
inductive Edited (e : Environ) (array : Option ℕ) : Environ → Prop where
  | kept : Edited e array e
  | replaced {env : EnvArray} {before after : List Text} {old s : Text} {l : ℕ}
      (henv : e.environ = some env) (hentries : env.entries = before ++ old :: after)
      (hname : s.take (l + 1) = old.take (l + 1)) (hsep : s[l]? = some '=') :
      Edited e array
        { e with environ := some { env with entries := before ++ s :: after } }
  | added {s : Text} {a : ℕ} (ha : array = some a) :
      Edited e array { environ := some ⟨a, e.entries ++ [s]⟩, oldenv := some a }
  | removed {env : EnvArray} (henv : e.environ = some env) (p : Text → Bool) :
      Edited e array
        { e with environ := some { env with entries := env.entries.filter p } }
  | cleared : Edited e array { e with environ := none }

theorem replaceFirst_eq_some {p : Text → Bool} {s : Text} {es es' : List Text}
    (h : replaceFirst p s es = some es') :
    ∃ before old after, es = before ++ old :: after ∧ p old = true ∧
      es' = before ++ s :: after := by
  induction es generalizing es' with
  | nil => cases h
  | cons e es ih =>
    unfold replaceFirst at h
    split_ifs at h with hp
    · obtain rfl := Option.some.inj h
      exact ⟨[], e, es, rfl, hp, rfl⟩
    · obtain ⟨es'', hes, rfl⟩ := Option.map_eq_some_iff.mp h
      obtain ⟨before, old, after, rfl, hold, rfl⟩ := ih hes
      exact ⟨e :: before, old, after, rfl, hold, rfl⟩

namespace Environ

variable {e : Environ}

theorem edited_putenvInner {s : Text} {l : ℕ} (hsep : s[l]? = some '=') (array : Option ℕ) :
    Edited e array (e.putenvInner s l array).1 := by
  unfold putenvInner
  cases hfound : e.environ.bind fun env =>
      (replaceFirst (fun entry => s.take (l + 1) = entry.take (l + 1)) s env.entries).map
        fun entries => { env with entries := entries } with
  | some env' =>
    obtain ⟨env, henv, hmap⟩ := Option.bind_eq_some_iff.mp hfound
    obtain ⟨entries, hentries, rfl⟩ := Option.map_eq_some_iff.mp hmap
    obtain ⟨before, old, after, hold, hname, rfl⟩ := replaceFirst_eq_some hentries
    exact .replaced henv hold (of_decide_eq_true hname) hsep
  | none =>
    cases array with
    | none => exact .kept
    | some a => exact .added rfl

theorem edited_unsetenv (name : Text) (array : Option ℕ) :
    Edited e array (e.unsetenv name).1 := by
  unfold unsetenv
  dsimp only
  split_ifs
  · exact .kept
  · cases henv : e.environ with
    | none =>
      have hsame : ({ e with environ := none } : Environ) = e := by rw [← henv]
      rw [Option.map_none, hsame]
      exact .kept
    | some env => exact .removed henv _

/-- The separator of a string that has one stands behind the name. -/
theorem getElem?_length_nameOf {s : Text} (h : (nameOf s).length < s.length) :
    s[(nameOf s).length]? = some '=' := by
  induction s with
  | nil => cases h
  | cons c s ih =>
    by_cases hc : c = '='
    · simp [nameOf, hc]
    · have hname : nameOf (c :: s) = c :: nameOf s := by simp [nameOf, hc]
      rw [hname] at h ⊢
      simpa using ih (by simpa using h)

/-- **A call** does one of these to the array. -/
theorem edited_perform (sealing : Option (Text → Option Text)) (c : EnvCall) :
    Edited e c.array (e.perform sealing c).1 := by
  cases c with
  | setenv var value overwrite string array =>
    cases var with
    | none => exact .kept
    | some var =>
      simp only [perform, setenv]
      split_ifs with hvar hkeep hstring
      · exact .kept
      · exact .kept
      · exact .kept
      · -- a name without a separator is the whole of the string in front of one
        rw [not_or, not_lt] at hvar
        have hlen : (nameOf var).length = var.length :=
          le_antisymm (List.takeWhile_prefix _).length_le hvar.2
        refine edited_putenvInner ?_ array
        rw [hlen, List.getElem?_append_right le_rfl, Nat.sub_self]
        rfl
  | putenv s array =>
    simp only [perform, putenv]
    split_ifs with hs
    · exact edited_unsetenv s array
    · rw [not_or, not_not] at hs
      exact edited_putenvInner (getElem?_length_nameOf hs.2) array
  | unsetenv name => exact edited_unsetenv name none
  | clearenv => exact .cleared

end Environ

end OpenkalMusl
