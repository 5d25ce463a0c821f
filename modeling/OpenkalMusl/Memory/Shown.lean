import OpenkalMusl.Memory.Mappings

/-!
# What a file mapping shows

`okm_map_file` moves the offset down to a multiple of the alignment that openkal maps at, extends
the length by as much, and cuts it where the file ends; the address it returns is as far above the
base as the offset was moved down. `start` and `want` are 64 bits wide, and so are the sums in which
they are computed.

## Main definitions

* `mapCall`: what `kal_map_file` is asked
* `Shows`: what `kal_map_file` does with it

## Main results

* `okmMapFile_of_call`: `okm_map_file` asks that, and returns an address made of what it is given
* `mapping_shows_file`: the mapping is inside the file, and shows it from the offset on
-/

namespace OpenkalMusl

/-- The arguments of `kal_map_file`, the bits of `how` said apart. -/
structure MapCall where
  start : ℕ
  want : ℕ
  write : Bool
  shared : Bool
  deriving DecidableEq

/-- The distance from a multiple of the alignment to the offset. -/
def MapRequest.lead (q : MapRequest) : ℕ := q.off.toNat % kalMapAlignment

/-- What `okm_map_file` asks of `kal_map_file`; nothing, where it refuses the request before. -/
def mapCall (env : MemEnv) (q : MapRequest) (target : MapTarget) : Option MapCall :=
  if env.maps = false ∨ q.fixed ∨ q.exec ∨ q.len = 0 ∨ q.off < 0 ∨
      (q.shared = false ∧ q.priv = false) then none
  else
    match target with
    | .file size =>
      if size ≤ q.off.toNat then none
      else
        let start := q.off.toNat - q.lead
        some ⟨start, Memory.wanted size start q.lead q.len, q.write, q.shared⟩
    | _ => none

/-- The memory at `base` is that part of the file, and all of it is memory. -/
structure Shows (c : MapCall) (file memory : ℕ → UInt8) (base : ℕ) : Prop where
  inMemory : base + c.want < 2 ^ 64
  shown : ∀ j < c.want, memory (base + j) = file (c.start + j)

variable {env : MemEnv} {m : Memory} {q : MapRequest} {a : MapAnswers} {size : ℕ}

/-- A request that is not refused is passed on, and the address returned is `lead` above the base
that is answered. -/
theorem okmMapFile_of_call {c : MapCall} (h : mapCall env q a.target = some c) :
    m.okmMapFile env q a =
      match a.mapped with
      | .error e => (m, .error (if e = .notSupported then .enodev else okmErrno e))
      | .ok base =>
        match (m.say (.take .map ⟨base, c.want⟩)).recordFile
            ⟨word (base + q.lead), q.len, base, c.want⟩ a.grows with
        | none => ((m.say (.take .map ⟨base, c.want⟩)).say (.give .map ⟨base, c.want⟩),
            .error .enomem)
        | some m' => (m', .ok (word (base + q.lead))) := by
  unfold mapCall at h
  split_ifs at h with hrefused
  simp only [not_or] at hrefused
  obtain ⟨hmaps, hfixed, hexec, hlen, hoff, hkind⟩ := hrefused
  unfold Memory.okmMapFile
  rw [if_neg hmaps, if_neg hfixed, if_neg hexec, if_neg (not_or.mpr ⟨hlen, hoff⟩), if_neg hkind]
  cases htarget : a.target with
  | badFd => simp [htarget] at h
  | notFile => simp [htarget] at h
  | noInfo e => simp [htarget] at h
  | file size =>
    simp only [htarget] at h ⊢
    split_ifs at h with hsize
    rw [Option.some.injEq] at h
    subst h
    rw [if_neg hsize]
    rfl

theorem wanted_eq {start lead len : ℕ} (h : start + (lead + len) < 2 ^ 64) :
    Memory.wanted size start lead len = min (lead + len) (size - start) := by
  have hwant : word (lead + len) = lead + len := word_eq (by omega)
  simp only [Memory.wanted, hwant, word_eq h]
  split_ifs <;> omega

/-- What is asked, where no sum wraps: the length asked for and the lead, or what is left of the
file where that is less. -/
theorem mapCall_eq {c : MapCall} (h : mapCall env q (.file size) = some c)
    (hlen : q.len < 2 ^ 63 - 1) (hoff : q.off < 2 ^ 63) :
    q.off.toNat < size ∧ 0 < q.len ∧ c.start + q.lead = q.off.toNat ∧
      c.start % kalMapAlignment = 0 ∧ c.start + (q.lead + q.len) < 2 ^ 64 ∧
      c.want = min (q.lead + q.len) (size - c.start) := by
  unfold mapCall at h
  split_ifs at h with hrefused
  simp only [not_or] at hrefused
  obtain ⟨-, -, -, hpos, hneg, -⟩ := hrefused
  dsimp only at h
  split_ifs at h with hsize
  rw [Option.some.injEq] at h
  subst h
  have hoff' : q.off.toNat < 2 ^ 63 := by omega
  have hlead : q.lead ≤ q.off.toNat := Nat.mod_le _ _
  have hmod : q.lead = q.off.toNat % 65536 := rfl
  have hsum : q.off.toNat - q.lead + (q.lead + q.len) < 2 ^ 64 := by omega
  dsimp only
  refine ⟨by omega, by omega, by omega, ?_, hsum, wanted_eq hsum⟩
  change (q.off.toNat - q.lead) % 65536 = 0
  omega

/-- **A file mapping shows the file from the offset asked for.** What `kal_map_file` is asked for is
aligned, is not empty and is inside the file, and no sum on the way wraps; and where it shows that
part of the file at the base, the address returned shows the file from the offset on. -/
theorem mapping_shows_file (hlen : q.len < 2 ^ 63 - 1) (hoff : q.off < 2 ^ 63)
    (htarget : a.target = .file size) {c : MapCall} (hcall : mapCall env q a.target = some c) :
    (c.start % kalMapAlignment = 0 ∧ 0 < c.want ∧ c.start + c.want ≤ size ∧
      q.lead + q.len < 2 ^ 64 ∧ c.start + (q.lead + q.len) < 2 ^ 64) ∧
    ∀ base file memory, a.mapped = .ok base → Shows c file memory base →
      base + q.lead < 2 ^ 64 ∧
      ∀ m' user, m.okmMapFile env q a = (m', .ok user) →
        ∀ i < q.len, q.off.toNat + i < size →
          memory (user + i) = file (q.off.toNat + i) := by
  have hcall' := hcall
  rw [htarget] at hcall'
  obtain ⟨hin, hpos, hstart, halign, hsum, hwant⟩ := mapCall_eq hcall' hlen hoff
  -- the cut leaves at least one byte after the lead
  have hlead : q.lead < c.want := by omega
  refine ⟨⟨halign, by omega, by omega, by omega, hsum⟩, ?_⟩
  intro base file memory hmapped hshows
  have hbase := hshows.inMemory
  refine ⟨by omega, ?_⟩
  intro m' user hrun i hi hfile
  have huser : user = base + q.lead := by
    rw [okmMapFile_of_call hcall, hmapped] at hrun
    dsimp only at hrun
    cases hrecord : (m.say (.take .map ⟨base, c.want⟩)).recordFile
        ⟨word (base + q.lead), q.len, base, c.want⟩ a.grows with
    | none => simp [hrecord] at hrun
    | some m'' =>
      simp only [hrecord, Prod.mk.injEq, Except.ok.injEq] at hrun
      rw [← hrun.2, word_eq (by omega)]
  have hplace : q.lead + i < c.want := by omega
  calc memory (user + i) = memory (base + (q.lead + i)) := by rw [huser, Nat.add_assoc]
    _ = file (c.start + (q.lead + i)) := hshows.shown _ hplace
    _ = file (q.off.toNat + i) := by rw [← Nat.add_assoc, hstart]

/-- Two pages of a file from its second page on, an offset that is no multiple of the alignment. -/
def fromSecondPage : MapRequest :=
  ⟨0, 8192, false, false, true, false, false, false, 3, 4096, twoPages_lt⟩

/-- A file of five pages, of which the environment maps what it is asked at `1048576`. -/
def fivePages : MapAnswers := ⟨.file 20480, .ok 1048576, none, none, true⟩

/-- The last byte of the mapping is the last of the file's third page. -/
theorem mapping_shows_file_secondPage :
    (Memory.start.okmMapFile ⟨true, true, 4096, none⟩ fromSecondPage fivePages).2 = .ok 1052672 ∧
      (fun x => UInt8.ofNat (x - 1048576)) (1052672 + 8191) =
        (fun j => UInt8.ofNat j) (4096 + 8191) := by
  have hmapped : ∀ j < 20480, UInt8.ofNat (1048576 + j - 1048576) = UInt8.ofNat (0 + j) := by
    intro j _
    rw [Nat.add_sub_cancel_left, Nat.zero_add]
  refine ⟨rfl, ?_⟩
  exact ((@mapping_shows_file ⟨true, true, 4096, none⟩ Memory.start fromSecondPage fivePages 20480
    (by decide) (by decide) rfl _ rfl).2 1048576 (fun j => UInt8.ofNat j)
    (fun x => UInt8.ofNat (x - 1048576)) rfl
    ⟨by decide, fun j hj => hmapped j (hj.trans (by decide))⟩).2
    _ _ rfl 8191 (by decide) (by decide)

end OpenkalMusl
