import OpenkalMusl.Port.Basic

/-!
# Endpoints and socket addresses

The conversions of `okm_net.c` between an openkal endpoint (address bytes in network order, their
number, and a port in host order) and a `sockaddr` in the program's layout. A `sockaddr` is the
memory at its address; the numbers in it that are in the machine's order have their low byte first,
on every machine this library builds for.

## Main definitions

* `Endpoint`: an endpoint as openkal names it
* `toEndpoint`, `fromEndpoint`: the conversions
-/

namespace OpenkalMusl

/-- A `struct kal_endpoint`, with the twenty bytes of its address; the defaults are those of cleared
storage. -/
structure Endpoint where
  addr : List UInt8 := List.replicate 20 0
  addrLen : ℕ := 0
  port : ℕ := 0
  deriving DecidableEq

/-- The memory at an address. -/
abbrev Bytes := ℕ → UInt8

section Sockaddr

def afInet : Int := 2
def afInet6 : Int := 10

def sizeofSockaddrIn : ℕ := 16
def sizeofSockaddrIn6 : ℕ := 28

/-- Two bytes in the machine's order. -/
def nativeShort (m : Bytes) (i : ℕ) : ℕ := (m i).toNat + 256 * (m (i + 1)).toNat

/-- Two bytes in network order, as `ntohs` reads them. -/
def ntohs (m : Bytes) (i : ℕ) : ℕ := 256 * (m i).toNat + (m (i + 1)).toNat

/-- Four bytes in the machine's order. -/
def nativeWord (m : Bytes) (i : ℕ) : ℕ := nativeShort m i + 65536 * nativeShort m (i + 2)

end Sockaddr

/-- The endpoint a `sockaddr` names; a length or a family that is not known is refused. -/
def toEndpoint (addr : Option Bytes) (len : ℕ) : Except Errno Endpoint :=
  match addr with
  | none => .error .efault
  | some m =>
    if (nativeShort m 0 : Int) = afInet then
      if len < sizeofSockaddrIn then .error .einval
      else .ok {
        addr := (List.range 20).map fun i => if i < 4 then m (4 + i) else 0
        addrLen := 4
        port := ntohs m 2 }
    else if (nativeShort m 0 : Int) = afInet6 then
      if len < sizeofSockaddrIn6 then .error .einval
      else
        let sc := nativeWord m 24
        .ok {
          addr := (List.range 20).map fun i =>
            if i < 16 then m (8 + i)
            else if sc ≠ 0 then UInt8.ofNat ((sc >>> ((i - 16) * 8)) &&& 0xff)
            else 0
          addrLen := if sc ≠ 0 then 20 else 16
          port := ntohs m 2 }
    else .error .eafnosupport

/-- The whole `sockaddr` of an endpoint, where the length of its address is known. -/
def sockaddrOf (ep : Endpoint) : Option (List UInt8) :=
  let port := [UInt8.ofNat (ep.port % 65536 / 256), UInt8.ofNat (ep.port % 256)]
  if ep.addrLen = 4 then
    some ([2, 0] ++ port ++ ep.addr.take 4 ++ List.replicate 8 0)
  else if ep.addrLen = 16 ∨ ep.addrLen = 20 then
    let scope := if ep.addrLen = 20 then (ep.addr.drop 16).take 4 else List.replicate 4 0
    some ([10, 0] ++ port ++ List.replicate 4 0 ++ ep.addr.take 16 ++ scope)
  else none

/-- What `from_endpoint` writes at the caller's address, and the length it reports: that of the
whole address, of which `room` bytes are written at most. -/
def fromEndpoint (ep : Endpoint) (room : ℕ) : Except Errno Unit × List UInt8 × ℕ :=
  match sockaddrOf ep with
  | some whole => (.ok (), whole.take room, whole.length)
  | none => (.error .eafnosupport, [], 0)

end OpenkalMusl
