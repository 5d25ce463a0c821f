import OpenkalMusl.Net.Endpoint
import Mathlib.Algebra.Order.Ring.Nat

/-!
# Addresses survive the conversion

`to_endpoint` and `from_endpoint` of `okm_net.c` are inverse to each other. An endpoint of a known
form, written as a `sockaddr` and read again, denotes the same endpoint: a scope of zero is left
out, which is the only difference. A `sockaddr` whose padding and flow information are zero comes
back byte for byte. A buffer that is too small receives the beginning of what a large one would, and
nothing is written past it.

## Main definitions

* `Endpoint.denoted`: what an endpoint names
* `written`: the memory after `from_endpoint`

## Main results

* `toEndpoint_written`: an endpoint that is written and read
* `fromEndpoint_toEndpoint_in`, `fromEndpoint_toEndpoint_in6`: a `sockaddr` that is read and written
* `addresses_survive`: the round trips, and what a room that is too small receives
-/

namespace OpenkalMusl

/-- The endpoint's address has a form that is known, and its port is one. -/
structure Endpoint.Known (ep : Endpoint) : Prop where
  bytes : ep.addr.length = 20
  form : ep.addrLen = 4 ∨ ep.addrLen = 16 ∨ ep.addrLen = 20
  port : ep.port < 65536

/-- The scope, of an endpoint in the form that has one. -/
def Endpoint.scope (ep : Endpoint) : List UInt8 := (ep.addr.drop 16).take 4

/-- The endpoint that is named: its address, without a scope of zero, and its port. -/
def Endpoint.denoted (ep : Endpoint) : List UInt8 × ℕ :=
  (if ep.addrLen = 20 ∧ ep.scope = [0, 0, 0, 0] then ep.addr.take 16 else ep.addr.take ep.addrLen,
    ep.port)

/-- The memory at an address after bytes were written there. -/
def written (m : Bytes) (bytes : List UInt8) : Bytes := fun i => (bytes[i]?).getD (m i)

/-- A `struct sockaddr_in` whose padding is zero. -/
structure PlainIn (m : Bytes) : Prop where
  family : nativeShort m 0 = 2
  padding : ∀ i, 8 ≤ i → i < 16 → m i = 0

/-- A `struct sockaddr_in6` whose flow information is zero. -/
structure PlainIn6 (m : Bytes) : Prop where
  family : nativeShort m 0 = 10
  flow : ∀ i, 4 ≤ i → i < 8 → m i = 0

/-- The bytes of a structure of `n` bytes. -/
def bytesAt (m : Bytes) (n : ℕ) : List UInt8 := (List.range n).map m

section Numbers

/-- A port written in network order is read back. -/
theorem port_bytes {p : ℕ} (h : p < 65536) :
    256 * (UInt8.ofNat (p % 65536 / 256)).toNat + (UInt8.ofNat (p % 256)).toNat = p := by
  rw [UInt8.toNat_ofNat', UInt8.toNat_ofNat']
  omega

/-- The two bytes of a port that was read are those it was read from. -/
theorem bytes_port (a b : UInt8) :
    UInt8.ofNat ((256 * a.toNat + b.toNat) % 65536 / 256) = a ∧
      UInt8.ofNat ((256 * a.toNat + b.toNat) % 256) = b := by
  have ha := a.toNat_lt
  have hb := b.toNat_lt
  constructor
  · apply UInt8.toNat_inj.mp
    rw [UInt8.toNat_ofNat']
    omega
  · apply UInt8.toNat_inj.mp
    rw [UInt8.toNat_ofNat']
    omega

/-- A family below 256 is its low byte. -/
theorem family_bytes {m : Bytes} {f : ℕ} (hf : f < 256) (h : nativeShort m 0 = f) :
    m 0 = UInt8.ofNat f ∧ m 1 = 0 := by
  have h0 := (m 0).toNat_lt
  have h1 := (m 1).toNat_lt
  simp only [nativeShort, Nat.zero_add] at h
  constructor
  · apply UInt8.toNat_inj.mp
    rw [UInt8.toNat_ofNat']
    omega
  · apply UInt8.toNat_inj.mp
    rw [UInt8.toNat_zero]
    omega

/-- The four bytes of a word, taken out one after another. -/
theorem scope_byte (m : Bytes) {j : ℕ} (hj : j < 4) :
    UInt8.ofNat ((nativeWord m 24 >>> (j * 8)) &&& 0xff) = m (24 + j) := by
  have h0 := (m 24).toNat_lt
  have h1 := (m 25).toNat_lt
  have h2 := (m 26).toNat_lt
  have h3 := (m 27).toNat_lt
  apply UInt8.toNat_inj.mp
  rw [UInt8.toNat_ofNat', Nat.shiftRight_eq_div_pow]
  have hand : ∀ n : ℕ, n &&& 0xff = n % 256 := fun n => Nat.and_two_pow_sub_one_eq_mod n 8
  rw [hand]
  simp only [nativeWord, nativeShort, Nat.reduceAdd]
  obtain rfl | rfl | rfl | rfl : j = 0 ∨ j = 1 ∨ j = 2 ∨ j = 3 := by omega
  all_goals
    simp only [Nat.zero_mul, Nat.one_mul, Nat.reduceMul, Nat.reducePow, Nat.reduceAdd]
    omega

theorem nativeWord_eq_zero_iff (m : Bytes) :
    nativeWord m 24 = 0 ↔ m 24 = 0 ∧ m 25 = 0 ∧ m 26 = 0 ∧ m 27 = 0 := by
  have hzero : ∀ b : UInt8, b = 0 ↔ b.toNat = 0 := fun b =>
    ⟨fun h => by rw [h, UInt8.toNat_zero], fun h =>
      UInt8.toNat_inj.mp (by rw [h, UInt8.toNat_zero])⟩
  simp only [nativeWord, nativeShort, hzero, Nat.reduceAdd]
  omega

end Numbers

/-! ## What is read -/

section Reading

variable {m : Bytes} {len : ℕ}

theorem bytesAt_add (m : Bytes) (a b : ℕ) :
    bytesAt m (a + b) = bytesAt m a ++ bytesAt (fun i => m (a + i)) b := by
  simp only [bytesAt, List.range_add, List.map_append, List.map_map]
  rfl

theorem length_bytesAt (m : Bytes) (n : ℕ) : (bytesAt m n).length = n := by
  rw [bytesAt, List.length_map, List.length_range]

theorem take_bytesAt (m : Bytes) (a b : ℕ) : (bytesAt m (a + b)).take a = bytesAt m a := by
  rw [bytesAt_add, List.take_left' (length_bytesAt m a)]

theorem drop_bytesAt (m : Bytes) (a b : ℕ) :
    (bytesAt m (a + b)).drop a = bytesAt (fun i => m (a + i)) b := by
  rw [bytesAt_add, List.drop_left' (length_bytesAt m a)]

theorem toEndpoint_in (hfamily : nativeShort m 0 = 2) (hlen : 16 ≤ len) :
    toEndpoint (some m) len =
      .ok ⟨bytesAt (fun i => if i < 4 then m (4 + i) else 0) 20, 4, ntohs m 2⟩ := by
  have hsize : ¬len < sizeofSockaddrIn := Nat.not_lt.mpr hlen
  have hin : (nativeShort m 0 : Int) = afInet := by
    rw [hfamily]
    rfl
  simp only [toEndpoint, if_pos hin, if_neg hsize]
  rfl

/-- The scope is copied byte by byte, and where it is zero nothing is left to copy. -/
theorem toEndpoint_in6 (hfamily : nativeShort m 0 = 10) (hlen : 28 ≤ len) :
    toEndpoint (some m) len =
      .ok ⟨bytesAt (fun i => m (8 + i)) 20, if nativeWord m 24 = 0 then 16 else 20, ntohs m 2⟩ := by
  have hsize : ¬len < sizeofSockaddrIn6 := Nat.not_lt.mpr hlen
  -- byte by byte: the address is copied, and the scope is taken apart and put together
  have hbyte : ∀ i ∈ List.range 20, (if i < 16 then m (8 + i)
      else if nativeWord m 24 ≠ 0 then UInt8.ofNat ((nativeWord m 24 >>> ((i - 16) * 8)) &&& 0xff)
      else 0) = m (8 + i) := by
    intro i hi
    have hi : i < 20 := List.mem_range.mp hi
    by_cases h16 : i < 16
    · rw [if_pos h16]
    · have hplace : 24 + (i - 16) = 8 + i := by omega
      rw [if_neg h16]
      by_cases hzero : nativeWord m 24 = 0
      · -- a scope of zero is four bytes of zero
        rw [if_neg (not_not_intro hzero)]
        obtain ⟨h0, h1, h2, h3⟩ := (nativeWord_eq_zero_iff m).mp hzero
        obtain rfl | rfl | rfl | rfl : i = 16 ∨ i = 17 ∨ i = 18 ∨ i = 19 := by omega
        · exact h0.symm
        · exact h1.symm
        · exact h2.symm
        · exact h3.symm
      · rw [if_pos hzero, scope_byte m (by omega), hplace]
  have hin : ¬(nativeShort m 0 : Int) = afInet := by
    rw [hfamily]
    decide
  have hin6 : (nativeShort m 0 : Int) = afInet6 := by
    rw [hfamily]
    rfl
  simp only [toEndpoint, if_neg hin, if_pos hin6, if_neg hsize, Except.ok.injEq,
    Endpoint.mk.injEq, ne_eq, ite_not, and_true]
  rw [bytesAt]
  apply List.map_congr_left
  intro i hi
  have h := hbyte i hi
  rwa [ite_not] at h

end Reading

/-! ## An endpoint, written and read -/

section Endpoints

variable {ep : Endpoint} {m : Bytes}

theorem written_of_lt {bytes : List UInt8} {i : ℕ} (h : i < bytes.length) :
    written m bytes i = bytes[i] := by
  rw [written, List.getElem?_eq_getElem h, Option.getD_some]

/-- The family and the port, as a `sockaddr` begins. -/
def Endpoint.head (ep : Endpoint) (family : UInt8) : List UInt8 :=
  [family, 0, UInt8.ofNat (ep.port % 65536 / 256), UInt8.ofNat (ep.port % 256)]

/-- The bytes in the place of the scope. -/
def Endpoint.scopeWritten (ep : Endpoint) : List UInt8 :=
  if ep.addrLen = 20 then ep.scope else [0, 0, 0, 0]

theorem sockaddrOf_in (h : ep.addrLen = 4) :
    sockaddrOf ep = some (ep.head 2 ++ (ep.addr.take 4 ++ List.replicate 8 0)) := by
  rw [sockaddrOf, if_pos h]
  rfl

theorem sockaddrOf_in6 (h : ep.addrLen = 16 ∨ ep.addrLen = 20) :
    sockaddrOf ep = some (ep.head 10 ++ [0, 0, 0, 0] ++ (ep.addr.take 16 ++ ep.scopeWritten)) := by
  rw [sockaddrOf, if_neg (by omega), if_pos h, ← List.append_assoc]
  rfl

/-- A `sockaddr` that begins with a family and a port is of that family and has that port. -/
theorem head_written {rest : List UInt8} {f : UInt8} (hport : ep.port < 65536) :
    nativeShort (written m (ep.head f ++ rest)) 0 = f.toNat ∧
      ntohs (written m (ep.head f ++ rest)) 2 = ep.port := by
  constructor
  · change f.toNat + 256 * (0 : UInt8).toNat = f.toNat
    rw [UInt8.toNat_zero]
    omega
  · exact port_bytes hport

/-- The bytes after a beginning are those of the rest. -/
theorem bytesAt_written_append {head rest : List UInt8} {k n : ℕ} (h : head.length = k)
    (hn : n ≤ rest.length) :
    bytesAt (fun i => written m (head ++ rest) (k + i)) n = rest.take n := by
  apply List.ext_getElem
  · rw [length_bytesAt, List.length_take, min_eq_left hn]
  · intro i hi hi'
    rw [length_bytesAt] at hi
    simp only [bytesAt, List.getElem_map, List.getElem_range, List.getElem_take]
    rw [written_of_lt (by rw [List.length_append]; omega),
      List.getElem_append_right (by omega)]
    congr 1
    omega

theorem Endpoint.Known.length_take (h : ep.Known) {k : ℕ} (hk : k ≤ 20) :
    (ep.addr.take k).length = k := by
  rw [List.length_take, h.bytes, min_eq_left hk]

theorem Endpoint.Known.length_scope (h : ep.Known) : ep.scopeWritten.length = 4 := by
  rw [scopeWritten]
  split_ifs
  · rw [scope, List.length_take, List.length_drop, h.bytes]
    rfl
  · rfl

theorem Endpoint.take_twenty (ep : Endpoint) :
    ep.addr.take 16 ++ ep.scope = ep.addr.take 20 := by
  rw [scope, ← List.take_add]

/-- What an endpoint of a long form names: the scope is left out where it is zero. -/
theorem Endpoint.denoted_long (h : ep.addrLen = 16 ∨ ep.addrLen = 20) :
    ep.denoted =
      (if ep.scopeWritten = [0, 0, 0, 0] then ep.addr.take 16 else ep.addr.take 20, ep.port) := by
  rcases h with h | h
  · have hne : ¬ep.addrLen = 20 := by omega
    rw [denoted, scopeWritten, if_neg (fun hcon => hne hcon.1), if_neg hne, if_pos rfl, h]
  · rw [denoted, scopeWritten, if_pos h, h]
    simp only [true_and]

/-- The scope that is read is zero where the bytes in its place are. -/
theorem nativeWord_written {head rest : List UInt8} (hhead : head.length = 24)
    (hrest : rest.length = 4) :
    nativeWord (written m (head ++ rest)) 24 = 0 ↔ rest = [0, 0, 0, 0] := by
  have hbytes := @bytesAt_written_append m head rest 24 4 hhead hrest.ge
  rw [List.take_of_length_le hrest.le] at hbytes
  generalize written m (head ++ rest) = w at hbytes ⊢
  rw [nativeWord_eq_zero_iff, ← hbytes]
  simp [bytesAt, List.range_succ]

/-- **An endpoint that is written and read is the same endpoint.** -/
theorem toEndpoint_written (h : ep.Known) {whole : List UInt8}
    (hwhole : sockaddrOf ep = some whole) :
    ∃ ep', toEndpoint (some (written m whole)) whole.length = .ok ep' ∧
      ep'.denoted = ep.denoted ∧ ep'.addrLen = ep.denoted.1.length := by
  by_cases h4 : ep.addrLen = 4
  · have htake := h.length_take (k := 4) (by decide)
    rw [sockaddrOf_in h4, Option.some.injEq] at hwhole
    subst hwhole
    obtain ⟨hfamily, hport⟩ :=
      @head_written ep m (ep.addr.take 4 ++ List.replicate 8 0) 2 h.port
    have haddr : bytesAt (fun i => written m (ep.head 2 ++ (ep.addr.take 4 ++ List.replicate 8 0))
        (4 + i)) 4 = ep.addr.take 4 := by
      have hhead : (ep.head 2).length = 4 := rfl
      rw [bytesAt_written_append hhead (by rw [List.length_append]; omega), List.take_left' htake]
    refine ⟨_, toEndpoint_in hfamily ?_, ?_, ?_⟩
    · rw [List.length_append, List.length_append, htake]
      exact le_rfl
    · rw [hport, Endpoint.denoted, Endpoint.denoted, if_neg (by simp), if_neg (by omega), h4,
        take_bytesAt _ 4 16, ← haddr]
      rfl
    · rw [Endpoint.denoted, if_neg (by omega), h4]
      exact htake.symm
  · have h6 := h.form.resolve_left h4
    have htake := h.length_take (k := 16) (by decide)
    have hscope := h.length_scope
    rw [sockaddrOf_in6 h6, Option.some.injEq] at hwhole
    subst hwhole
    obtain ⟨hfamily, hport⟩ :=
      @head_written ep m ([0, 0, 0, 0] ++ (ep.addr.take 16 ++ ep.scopeWritten)) 10 h.port
    rw [← List.append_assoc] at hfamily hport
    have haddr : bytesAt (fun i => written m (ep.head 10 ++ [0, 0, 0, 0] ++
        (ep.addr.take 16 ++ ep.scopeWritten)) (8 + i)) 20 = ep.addr.take 16 ++ ep.scopeWritten := by
      have hhead : (ep.head 10 ++ [0, 0, 0, 0]).length = 8 := rfl
      rw [bytesAt_written_append hhead (by rw [List.length_append]; omega),
        List.take_of_length_le (by rw [List.length_append]; omega)]
    -- the scope that is read is zero where the scope that was written is
    have hzero : nativeWord (written m (ep.head 10 ++ [0, 0, 0, 0] ++
        (ep.addr.take 16 ++ ep.scopeWritten))) 24 = 0 ↔ ep.scopeWritten = [0, 0, 0, 0] := by
      rw [← List.append_assoc]
      have hhead : (ep.head 10 ++ [0, 0, 0, 0]).length = 8 := rfl
      exact nativeWord_written (by rw [List.length_append, hhead, htake]) hscope
    refine ⟨_, toEndpoint_in6 hfamily ?_, ?_, ?_⟩
    · have hhead : (ep.head 10 ++ [0, 0, 0, 0]).length = 8 := rfl
      rw [List.length_append, hhead, List.length_append, htake, hscope]
    · rw [haddr, hport]
      have hform : (if nativeWord (written m (ep.head 10 ++ [0, 0, 0, 0] ++
          (ep.addr.take 16 ++ ep.scopeWritten))) 24 = 0 then 16 else 20) =
          if ep.scopeWritten = [0, 0, 0, 0] then 16 else 20 := by
        simp only [hzero]
      rw [hform]
      by_cases hs : ep.scopeWritten = [0, 0, 0, 0]
      · -- a scope of zero is left out on both sides
        have hzeros : Endpoint.scopeWritten ⟨ep.addr.take 16 ++ ep.scopeWritten, 16, ep.port⟩ =
            [0, 0, 0, 0] := rfl
        rw [if_pos hs, Endpoint.denoted_long (Or.inl rfl), Endpoint.denoted_long h6, if_pos hs,
          if_pos hzeros, List.take_left' htake]
      · have h20 : ep.addrLen = 20 := by
          by_contra hne
          exact hs (if_neg hne)
        have hscope' : Endpoint.scopeWritten ⟨ep.addr.take 16 ++ ep.scopeWritten, 20, ep.port⟩ =
            ep.scopeWritten := by
          rw [Endpoint.scopeWritten, if_pos rfl, Endpoint.scope, List.drop_left' htake,
            List.take_of_length_le hscope.le]
        rw [if_neg hs, Endpoint.denoted_long (Or.inr rfl), Endpoint.denoted_long h6, hscope',
          if_neg hs, if_neg hs, List.take_of_length_le (by rw [List.length_append]; omega),
          Endpoint.scopeWritten, if_pos h20, ep.take_twenty]
    · rw [Endpoint.denoted_long h6]
      simp only [hzero]
      split_ifs
      · exact htake.symm
      · exact (h.length_take le_rfl).symm

theorem Endpoint.Known.sockaddrOf_eq_some (h : ep.Known) :
    ∃ whole, sockaddrOf ep = some whole ∧ whole.length ≤ 28 := by
  by_cases h4 : ep.addrLen = 4
  · refine ⟨_, sockaddrOf_in h4, ?_⟩
    have hhead : (ep.head 2).length = 4 := rfl
    have htake := h.length_take (k := 4) (by decide)
    rw [List.length_append, hhead, List.length_append, htake, List.length_replicate]
    omega
  · refine ⟨_, sockaddrOf_in6 (h.form.resolve_left h4), ?_⟩
    have hhead : (ep.head 10 ++ [0, 0, 0, 0]).length = 8 := rfl
    have htake := h.length_take (k := 16) (by decide)
    rw [List.length_append, hhead, List.length_append, htake, h.length_scope]

/-- A buffer with room for the whole address receives it. -/
theorem fromEndpoint_roomy {whole : List UInt8} {room : ℕ} (h : sockaddrOf ep = some whole)
    (hroom : whole.length ≤ room) : fromEndpoint ep room = (.ok (), whole, whole.length) := by
  rw [fromEndpoint, h]
  simp only [List.take_of_length_le hroom]

/-- Bytes that are cut short leave what comes after them as it was. -/
theorem written_take (m : Bytes) (whole : List UInt8) (room i : ℕ) :
    written m (whole.take room) i = if i < room then written m whole i else m i := by
  simp only [written, List.getElem?_take]
  split_ifs
  · rfl
  · rfl

end Endpoints

/-! ## A `sockaddr`, read and written -/

section Sockaddrs

variable {m : Bytes} {len : ℕ}

theorem bytesAt_eq_zeros {n : ℕ} (h : ∀ i < n, m i = 0) : bytesAt m n = List.replicate n 0 := by
  apply List.eq_replicate_iff.mpr
  refine ⟨length_bytesAt m n, ?_⟩
  intro b hb
  obtain ⟨i, hi, rfl⟩ := List.mem_map.mp hb
  exact h i (List.mem_range.mp hi)

/-- The family and the port that were read are written back. -/
theorem head_bytes {f addrLen : ℕ} {addr : List UInt8} (hf : f < 256)
    (hfamily : nativeShort m 0 = f) :
    Endpoint.head ⟨addr, addrLen, ntohs m 2⟩ (UInt8.ofNat f) = bytesAt m 4 := by
  obtain ⟨h0, h1⟩ := family_bytes hf hfamily
  obtain ⟨h2, h3⟩ := bytes_port (m 2) (m 3)
  change [UInt8.ofNat f, 0, _, _] = [m 0, m 1, m 2, m 3]
  rw [h0, h1]
  congr 3
  rw [← h3]
  rfl

/-- **A `sockaddr_in` that is read and written is the same `sockaddr_in`.** -/
theorem fromEndpoint_toEndpoint_in (h : PlainIn m) (hlen : 16 ≤ len) :
    ∃ ep, toEndpoint (some m) len = .ok ep ∧ sockaddrOf ep = some (bytesAt m 16) := by
  refine ⟨_, toEndpoint_in h.family hlen, ?_⟩
  have hzeros : bytesAt (fun i => m (8 + i)) 8 = List.replicate 8 0 := by
    apply bytesAt_eq_zeros
    intro i hi
    exact h.padding (8 + i) (by omega) (by omega)
  have hwhole : bytesAt m 16 =
      bytesAt m 4 ++ (bytesAt (fun i => m (4 + i)) 4 ++ bytesAt (fun i => m (8 + i)) 8) := by
    rw [bytesAt_add m 4 12, bytesAt_add _ 4 8]
    simp only [← Nat.add_assoc]
  rw [sockaddrOf_in rfl, hwhole, hzeros, ← head_bytes (by decide) h.family,
    take_bytesAt _ 4 16]
  rfl

/-- **A `sockaddr_in6` that is read and written is the same `sockaddr_in6`.** -/
theorem fromEndpoint_toEndpoint_in6 (h : PlainIn6 m) (hlen : 28 ≤ len) :
    ∃ ep, toEndpoint (some m) len = .ok ep ∧ sockaddrOf ep = some (bytesAt m 28) := by
  refine ⟨_, toEndpoint_in6 h.family hlen, ?_⟩
  have hzeros : bytesAt (fun i => m (4 + i)) 4 = [0, 0, 0, 0] := by
    apply bytesAt_eq_zeros (n := 4)
    intro i hi
    exact h.flow (4 + i) (by omega) (by omega)
  have hwhole : bytesAt m 28 = bytesAt m 4 ++ bytesAt (fun i => m (4 + i)) 4 ++
      (bytesAt (fun i => m (8 + i)) 16 ++ bytesAt (fun i => m (24 + i)) 4) := by
    rw [bytesAt_add m 8 20, bytesAt_add m 4 4, bytesAt_add _ 16 4]
    simp only [← Nat.add_assoc]
  -- the scope is written as it was read, also where it was left out
  have hscope : ∀ {n}, n = (if nativeWord m 24 = 0 then 16 else 20) →
      Endpoint.scopeWritten ⟨bytesAt (fun i => m (8 + i)) 20, n, ntohs m 2⟩ =
        bytesAt (fun i => m (24 + i)) 4 := by
    intro n hn
    rw [Endpoint.scopeWritten, Endpoint.scope]
    by_cases hz : nativeWord m 24 = 0
    · obtain ⟨h0, h1, h2, h3⟩ := (nativeWord_eq_zero_iff m).mp hz
      rw [if_pos hz] at hn
      have hne : ¬n = 20 := by omega
      rw [if_neg hne, bytesAt_eq_zeros (n := 4)]
      · rfl
      · intro i hi
        obtain rfl | rfl | rfl | rfl : i = 0 ∨ i = 1 ∨ i = 2 ∨ i = 3 := by omega
        exacts [h0, h1, h2, h3]
    · rw [if_neg hz] at hn
      rw [if_pos hn, drop_bytesAt _ 16 4, List.take_of_length_le (length_bytesAt _ _).le]
      simp only [← Nat.add_assoc]
  have hform : (if nativeWord m 24 = 0 then 16 else 20) = 16 ∨
      (if nativeWord m 24 = 0 then 16 else 20) = 20 := by
    split_ifs
    · exact Or.inl rfl
    · exact Or.inr rfl
  rw [sockaddrOf_in6 hform, hscope rfl, hwhole, hzeros, ← head_bytes (by decide) h.family,
    take_bytesAt _ 16 4]
  rfl

end Sockaddrs

/-- **Addresses survive the conversion.** The endpoint that is read from what was written denotes
the one that was written, in its shortest form; a plain `sockaddr` of either family comes back byte
for byte; and in every room the beginning of the whole address is written, nothing after it, and
the whole length is reported. -/
theorem addresses_survive :
    (∀ ep m room, ep.Known → (fromEndpoint ep room).2.2 ≤ room →
      ∃ ep', toEndpoint (some (written m (fromEndpoint ep room).2.1)) (fromEndpoint ep room).2.2 =
          .ok ep' ∧
        ep'.denoted = ep.denoted ∧ ep'.addrLen = ep.denoted.1.length) ∧
    (∀ m len room, PlainIn m → 16 ≤ len → 16 ≤ room →
      ∃ ep, toEndpoint (some m) len = .ok ep ∧ fromEndpoint ep room = (.ok (), bytesAt m 16, 16)) ∧
    (∀ m len room, PlainIn6 m → 28 ≤ len → 28 ≤ room →
      ∃ ep, toEndpoint (some m) len = .ok ep ∧ fromEndpoint ep room = (.ok (), bytesAt m 28, 28)) ∧
    ∀ ep m room, ep.Known → ∃ whole, (fromEndpoint ep 28) = (.ok (), whole, whole.length) ∧
      fromEndpoint ep room = (.ok (), whole.take room, whole.length) ∧
      ∀ i, written m (fromEndpoint ep room).2.1 i =
        if i < room then written m whole i else m i := by
  refine ⟨?_, ?_, ?_, ?_⟩
  · intro ep m room h hroom
    -- the room is large enough, so that the whole `sockaddr` is written
    obtain ⟨whole, hwhole, -⟩ := h.sockaddrOf_eq_some
    have hlen : (fromEndpoint ep room).2.2 = whole.length := by rw [fromEndpoint, hwhole]
    rw [hlen] at hroom
    rw [fromEndpoint_roomy hwhole hroom]
    exact toEndpoint_written h hwhole
  · intro m len room h hlen hroom
    obtain ⟨ep, hep, hwhole⟩ := fromEndpoint_toEndpoint_in h hlen
    have hlength := length_bytesAt m 16
    refine ⟨ep, hep, ?_⟩
    rw [fromEndpoint_roomy hwhole (by omega), hlength]
  · intro m len room h hlen hroom
    obtain ⟨ep, hep, hwhole⟩ := fromEndpoint_toEndpoint_in6 h hlen
    have hlength := length_bytesAt m 28
    refine ⟨ep, hep, ?_⟩
    rw [fromEndpoint_roomy hwhole (by omega), hlength]
  · intro ep m room h
    obtain ⟨whole, hwhole, hlen⟩ := h.sockaddrOf_eq_some
    have hroom : fromEndpoint ep room = (.ok (), whole.take room, whole.length) := by
      rw [fromEndpoint, hwhole]
    refine ⟨whole, fromEndpoint_roomy hwhole hlen, hroom, ?_⟩
    intro i
    rw [hroom]
    exact written_take m whole room i

/-- An address with a scope is written and read. -/
theorem addresses_survive_scoped :
    ∃ ep', toEndpoint (some (written (fun _ => 0)
          (fromEndpoint ⟨List.replicate 16 32 ++ [3, 0, 0, 0], 20, 8080⟩ 128).2.1)) 28 = .ok ep' ∧
      ep'.denoted = (List.replicate 16 32 ++ [3, 0, 0, 0], 8080) ∧ ep'.addrLen = 20 :=
  addresses_survive.1 ⟨List.replicate 16 32 ++ [3, 0, 0, 0], 20, 8080⟩ _ 128
    ⟨rfl, Or.inr (Or.inr rfl), by decide⟩ (by decide)

end OpenkalMusl
