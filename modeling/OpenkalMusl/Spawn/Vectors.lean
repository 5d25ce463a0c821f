import Mathlib.Data.List.Perm.Basic
import OpenkalMusl.Spawn.Performed

/-!
# Arguments and named values across a start

The vectors that `__okm_spawn_common` sends are taken up again by the program that is started, by
`okm_take_args` and `__okm_init_env` of `okm_start.c`: openkal answers each argument by its number,
each name by its number, and a value by its name. Every answer is asked for twice, first for its
length and then for the text.

Both ends have a bound of their own. The sender takes fewer than 512 of each, and the receiver keeps
255 arguments and 511 named values.

## Main definitions

* `KalEnv`, `okmTakeArgs`, `okmInitEnv`: the environment as the started program meets it,
  and what it takes
* `Named`: the entries are of the form `name=value`, with distinct names
* `Reports`: the environment answers what was passed to the start

## Main results

* `collect_eq`: a loop of the receiver keeps as much as its bound
* `received_iff`: the vectors survive exactly where there are at most 255 arguments
* `arguments_cut`: a program that misses its last argument
-/

namespace OpenkalMusl

/-- openkal's env interface: the length of the whole, and as much of the text as there is room for;
nothing where the answer is an error. -/
structure KalEnv where
  argCount : ℕ
  arg : ℕ → ℕ → Option (ℕ × Text)
  varCount : ℕ
  varAt : ℕ → ℕ → Option (ℕ × Text)
  var : Text → ℕ → Option (ℕ × Text)

/-- A text asked for by its length and then whole, into memory of its own. -/
def KalEnv.copied (answer : ℕ → Option (ℕ × Text)) (memory : Bool) : Option Text :=
  match answer 0 with
  | none => none
  | some (len, _) =>
    if memory then
      match answer len with
      | some (len', text) => if len' = len then some text else none
      | none => none
    else none

/-- A loop of the receiver: it goes on while there is room, and stops at what it cannot have. -/
def collect (bound : ℕ) (get : ℕ → Option Text) : List ℕ → List Text → List Text
  | [], taken => taken
  | i :: is, taken =>
    if taken.length < bound then
      match get i with
      | none => taken
      | some p => collect bound get is (taken ++ [p])
    else taken

/-- `okm_take_args`; `memory i` says whether the allocation for the `i`-th is met. -/
def KalEnv.okmTakeArgs (env : KalEnv) (memory : ℕ → Bool) : List Text :=
  collect 255 (fun i => copied (env.arg i) (memory i)) (List.range env.argCount) []

/-- One named value: its name, and then what is found under it. -/
def KalEnv.namedValue (env : KalEnv) (nameMemory valueMemory : ℕ → Bool) (i : ℕ) : Option Text :=
  match copied (env.varAt i) (nameMemory i) with
  | none => none
  | some name =>
    -- a name without a value is given an empty one
    let have_ := ((env.var name 0).map Prod.fst).getD 0
    if valueMemory i then
      let value := if have_ = 0 then [] else ((env.var name have_).map Prod.snd).getD []
      some (name ++ '=' :: value)
    else none

/-- `__okm_init_env`, after the arguments. -/
def KalEnv.okmInitEnv (env : KalEnv) (nameMemory valueMemory : ℕ → Bool) : List Text :=
  collect 511 (env.namedValue nameMemory valueMemory) (List.range env.varCount) []

/-! ## What the environment promises -/

def nameOf (entry : Text) : Text := entry.takeWhile (· ≠ '=')

def valueOf (entry : Text) : Text := (entry.dropWhile (· ≠ '=')).drop 1

/-- The entries are of the form `name=value`, with names that are not empty and distinct. -/
structure Named (envp : List Text) : Prop where
  form : ∀ e ∈ envp, '=' ∈ e ∧ nameOf e ≠ []
  distinct : (envp.map nameOf).Nodup

/-- A text as openkal answers it. -/
def answered (text : Text) (cap : ℕ) : Option (ℕ × Text) := some (text.length, text.take cap)

/-- In the started program the environment answers what was passed to the start: the arguments in
order, the names in an order of its own, and each value under its name. -/
structure Reports (env : KalEnv) (argv envp : List Text) : Prop where
  argCount : env.argCount = argv.length
  args : ∀ i (h : i < argv.length), env.arg i = answered argv[i]
  names : ∃ names : List Text, names.Perm (envp.map nameOf) ∧ env.varCount = names.length ∧
    ∀ i (h : i < names.length), env.varAt i = answered names[i]
  values : ∀ e ∈ envp, env.var (nameOf e) = answered (valueOf e)

theorem copied_answered (text : Text) : KalEnv.copied (answered text) true = some text := by
  simp [KalEnv.copied, answered]

/-- **A loop of the receiver** keeps as much of what it is answered as its bound. -/
theorem collect_eq {bound : ℕ} {get : ℕ → Option Text} (texts : List Text) (k : ℕ)
    (taken : List Text)
    (h : ∀ i (hi : i < texts.length), get (k + i) = some texts[i]) :
    collect bound get (List.range' k texts.length) taken =
      taken ++ texts.take (bound - taken.length) := by
  induction texts generalizing k taken with
  | nil => simp [collect]
  | cons text texts ih =>
    have hfirst : get k = some text := h 0 (Nat.zero_lt_succ _)
    rw [List.length_cons, List.range'_succ, collect]
    split_ifs with hroom
    · rw [hfirst]
      simp only
      rw [ih (k + 1) (taken ++ [text]) fun i hi => ?_]
      · obtain ⟨n, hn⟩ := Nat.exists_eq_add_of_lt hroom
        have hafter : bound - (taken ++ [text]).length = n := by
          rw [List.length_append, List.length_singleton]
          omega
        have hbefore : bound - taken.length = n + 1 := by omega
        rw [hafter, hbefore, List.take_succ_cons, List.append_assoc, List.singleton_append]
      · rw [Nat.add_right_comm]
        exact h (i + 1) (Nat.succ_lt_succ hi)
    · rw [Nat.sub_eq_zero_of_le (Nat.not_lt.mp hroom), List.take_zero, List.append_nil]

/-- An entry is its name and its value. -/
theorem nameOf_append_valueOf {e : Text} (h : '=' ∈ e) : nameOf e ++ '=' :: valueOf e = e := by
  induction e with
  | nil => cases h
  | cons c e ih =>
    by_cases hc : c = '='
    · simp [nameOf, valueOf, hc]
    · have hrest : '=' ∈ e := (List.mem_cons.mp h).resolve_left fun heq => hc heq.symm
      have hname : nameOf (c :: e) = c :: nameOf e := by simp [nameOf, hc]
      have hvalue : valueOf (c :: e) = valueOf e := by simp [valueOf, hc]
      rw [hname, hvalue, List.cons_append, ih hrest]

/-- Names determine the entries: a list of the names in another order is the names of a list of the
entries in that order. -/
theorem exists_perm_of_names {names envp : List Text} (h : names.Perm (envp.map nameOf)) :
    ∃ entries : List Text, entries.Perm envp ∧ entries.map nameOf = names := by
  have hcomp : Relation.Comp (· = List.map nameOf ·) List.Perm names envp := by
    rw [List.eq_map_comp_perm]
    exact h
  obtain ⟨entries, hentries, hperm⟩ := hcomp
  exact ⟨entries, hperm, hentries.symm⟩

section Received

variable {env : KalEnv} {argv envp : List Text}

theorem Reports.takeArgs (h : Reports env argv envp) {memory : ℕ → Bool}
    (hm : ∀ i, memory i = true) :
    env.okmTakeArgs memory = argv.take 255 := by
  unfold KalEnv.okmTakeArgs
  rw [List.range_eq_range', h.argCount, collect_eq argv 0 [] fun i hi => ?_]
  · rfl
  · rw [Nat.zero_add, h.args i hi, hm i, copied_answered]

/-- One named value, where the environment reports it. -/
theorem Reports.namedValue (h : Reports env argv envp) (hn : Named envp)
    {nameMemory valueMemory : ℕ → Bool}
    (hnm : ∀ i, nameMemory i = true) (hvm : ∀ i, valueMemory i = true) {i : ℕ} {e : Text}
    (he : e ∈ envp)
    (hi : env.varAt i = answered (nameOf e)) :
    env.namedValue nameMemory valueMemory i = some e := by
  unfold KalEnv.namedValue
  rw [hi, hnm i, copied_answered]
  simp only [h.values e he, hvm i, if_true, answered, Option.map_some, Option.getD_some]
  have hvalue : (if (valueOf e).length = 0 then [] else (valueOf e).take (valueOf e).length) =
      valueOf e := by
    split_ifs with hempty
    · exact (List.length_eq_zero_iff.mp hempty).symm
    · exact List.take_length
  rw [hvalue, nameOf_append_valueOf (hn.form e he).1]

/-- **The named values survive**, in the order that the environment reports them. -/
theorem Reports.initEnv (h : Reports env argv envp) (hn : Named envp)
    (hmax : envp.length < okmSpawnMax)
    {nameMemory valueMemory : ℕ → Bool} (hnm : ∀ i, nameMemory i = true)
    (hvm : ∀ i, valueMemory i = true) : (env.okmInitEnv nameMemory valueMemory).Perm envp := by
  obtain ⟨names, hperm, hcount, hat⟩ := h.names
  obtain ⟨entries, hentries, rfl⟩ := exists_perm_of_names hperm
  rw [List.length_map] at hcount
  have hall : env.okmInitEnv nameMemory valueMemory = entries := by
    unfold KalEnv.okmInitEnv
    rw [List.range_eq_range', hcount, collect_eq entries 0 [] fun i hi => ?_]
    · have hlen := hentries.length_eq
      rw [List.nil_append, List.take_of_length_le]
      unfold okmSpawnMax at hmax
      simp only [List.length_nil]
      omega
    · have hmem : entries[i] ∈ envp := hentries.mem_iff.mp (List.getElem_mem hi)
      refine h.namedValue hn hnm hvm hmem ?_
      rw [Nat.zero_add, hat i (by rwa [List.length_map]), List.getElem_map]
  rwa [hall]

end Received

/-- **Arguments and named values survive a start** exactly where there are at most 255 arguments. -/
theorem received_iff {w : PortState} {env : SpawnEnv} {args : SpawnArgs} {fa : FileActions}
    {q : Request} (h : w.okmSpawnCommon env args fa = .ok q) (hn : Named args.envp) {kal : KalEnv}
    (hr : Reports kal q.argv q.envp) {memory nameMemory valueMemory : ℕ → Bool}
    (hm : ∀ i, memory i = true) (hnm : ∀ i, nameMemory i = true) (hvm : ∀ i, valueMemory i = true) :
    kal.okmTakeArgs memory = args.argv ∧ (kal.okmInitEnv nameMemory valueMemory).Perm args.envp ↔
      args.argv.length ≤ 255 := by
  obtain ⟨-, hmax, -, at_, -, -, rfl⟩ := okmSpawnCommon_ok h
  rw [hr.takeArgs hm, and_iff_left (hr.initEnv hn hmax hnm hvm), List.take_eq_self_iff]

/-- openkal's env interface in a program that was started with these vectors. -/
def KalEnv.passed (argv envp : List Text) : KalEnv where
  argCount := argv.length
  arg := fun i cap => argv[i]?.bind fun text => answered text cap
  varCount := envp.length
  varAt := fun i cap => envp[i]?.bind fun e => answered (nameOf e) cap
  var := fun name cap => (envp.find? fun e => nameOf e = name).bind fun e =>
    answered (valueOf e) cap

/-- Distinct names are found where they stand. -/
theorem find?_nameOf {envp : List Text} (h : (envp.map nameOf).Nodup) {e : Text} (he : e ∈ envp) :
    (envp.find? fun x => nameOf x = nameOf e) = some e := by
  induction envp with
  | nil => cases he
  | cons x envp ih =>
    rw [List.map_cons, List.nodup_cons] at h
    rcases List.mem_cons.mp he with rfl | he
    · simp
    · have hne : nameOf x ≠ nameOf e := fun heq => h.1 (heq ▸ List.mem_map_of_mem he)
      rw [List.find?_cons_of_neg (by simpa using hne)]
      exact ih h.2 he

theorem reports_passed {argv envp : List Text} (h : Named envp) :
    Reports (.passed argv envp) argv envp where
  argCount := rfl
  args := by
    intro i hi
    simp [KalEnv.passed, List.getElem?_eq_getElem hi]
  names := by
    refine ⟨envp.map nameOf, List.Perm.refl _, (List.length_map _).symm, fun i hi => ?_⟩
    rw [List.length_map] at hi
    simp [KalEnv.passed, List.getElem?_eq_getElem hi]
  values := by
    intro e he
    simp [KalEnv.passed, find?_nameOf h.distinct he]

/-- The program `/p` with its name and `n` arguments more, and one named value. -/
def SpawnArgs.counted (n : ℕ) : SpawnArgs where
  res := true
  path := some ['/', 'p']
  attr := none
  argv := ['p'] :: List.replicate n ['x']
  envp := [['A', '=', 'b']]

theorem named_counted (n : ℕ) : Named (SpawnArgs.counted n).envp := by
  show Named [['A', '=', 'b']]
  exact ⟨by decide, by decide⟩

/-- What a spawn accepts is not read from its arguments before their number. -/
theorem okmSpawnCommon_counted {n : ℕ} (hn : n + 1 < okmSpawnMax) :
    ∃ q, (PortState.okmTableInit 1 .supplied).okmSpawnCommon .granting (.counted n) [] = .ok q := by
  have hplain : ((PortState.okmTableInit 1 .supplied).okmSpawnCommon .granting .plain
      []).toOption.isSome = true := by decide +kernel
  obtain ⟨q, hq⟩ := Option.isSome_iff_exists.mp hplain
  obtain ⟨-, -, hr, at_, hat, hstart, -⟩ := okmSpawnCommon_ok (eq_ok_of_toOption hq)
  have hlen : ¬ ((SpawnArgs.counted n).argv.length ≥ okmSpawnMax ∨
      (SpawnArgs.counted n).envp.length ≥ okmSpawnMax) := by
    simp only [SpawnArgs.counted, List.length_cons, List.length_replicate, List.length_nil]
    unfold okmSpawnMax at *
    omega
  unfold PortState.okmSpawnCommon
  have hat' : (PortState.okmTableInit 1 .supplied).okmResolve atFdcwd (SpawnArgs.counted n).path
      false = .ok at_ := hat
  rw [if_neg (by simp [SpawnArgs.counted]), if_neg (by simp [SpawnArgs.counted]), hat']
  simp only [hstart, if_neg hlen, hr]
  exact ⟨_, rfl⟩

/-- Two arguments and a named value, received as they were sent. -/
theorem received_iff_two :
    ∃ q, (PortState.okmTableInit 1 .supplied).okmSpawnCommon .granting (.counted 1) [] = .ok q ∧
      Reports (.passed q.argv q.envp) q.argv q.envp ∧
      ((KalEnv.passed q.argv q.envp).okmTakeArgs (fun _ => true) = (SpawnArgs.counted 1).argv ∧
          ((KalEnv.passed q.argv q.envp).okmInitEnv (fun _ => true) fun _ => true).Perm
            (SpawnArgs.counted 1).envp ↔
        (SpawnArgs.counted 1).argv.length ≤ 255) := by
  obtain ⟨q, hq⟩ := okmSpawnCommon_counted (n := 1) (by decide)
  have henvp : q.envp = (SpawnArgs.counted 1).envp := by
    obtain ⟨-, -, -, at_, -, -, rfl⟩ := okmSpawnCommon_ok hq
    rfl
  have hreports : Reports (.passed q.argv q.envp) q.argv q.envp :=
    reports_passed (henvp ▸ named_counted 1)
  exact ⟨q, hq, hreports, received_iff hq (named_counted 1) hreports (fun _ => rfl) (fun _ => rfl)
    fun _ => rfl⟩

/-- **Arguments that are cut**: of 256 the program receives 255, and no error is met. -/
theorem arguments_cut :
    ∃ q, (PortState.okmTableInit 1 .supplied).okmSpawnCommon .granting (.counted 255) [] = .ok q ∧
      Named (SpawnArgs.counted 255).envp ∧ Reports (.passed q.argv q.envp) q.argv q.envp ∧
      (SpawnArgs.counted 255).argv.length = 256 ∧
      ((KalEnv.passed q.argv q.envp).okmTakeArgs fun _ => true).length = 255 ∧
      (KalEnv.passed q.argv q.envp).okmTakeArgs (fun _ => true) ≠ (SpawnArgs.counted 255).argv := by
  obtain ⟨q, hq⟩ := okmSpawnCommon_counted (n := 255) (by decide)
  have hvectors : q.argv = (SpawnArgs.counted 255).argv ∧
    q.envp = (SpawnArgs.counted 255).envp := by
    obtain ⟨-, -, -, at_, -, -, rfl⟩ := okmSpawnCommon_ok hq
    exact ⟨rfl, rfl⟩
  have hreports : Reports (.passed q.argv q.envp) q.argv q.envp :=
    reports_passed (hvectors.2 ▸ named_counted 255)
  have hsent : (SpawnArgs.counted 255).argv.length = 256 := by
    show (['p'] :: List.replicate 255 ['x']).length = 256
    rw [List.length_cons, List.length_replicate]
  have hlen : ((KalEnv.passed q.argv q.envp).okmTakeArgs fun _ => true).length = 255 := by
    rw [hreports.takeArgs fun _ => rfl, hvectors.1, List.length_take, hsent]
    rfl
  refine ⟨q, hq, named_counted 255, hreports, hsent, hlen, fun heq => ?_⟩
  rw [heq, hsent] at hlen
  cases hlen

end OpenkalMusl
