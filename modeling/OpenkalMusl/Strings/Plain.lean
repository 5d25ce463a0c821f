import OpenkalMusl.Bytes.Fill

/-!
# The string functions a byte at a time

What the memory and string functions are for, written a byte at a time: the definitions that the
vector functions of `okm_string.c` are checked against. An address is a natural number; a null
pointer is `none`.

The file is compiled in one of several ways. On x86_64 it holds the functions over thirty-two bytes
and those over sixteen, on AArch64 those over sixteen with another mask, and anywhere else those
that go a word at a time, whose word and byte order are the machine's.

## Main definitions

* `Strings.Variant`: what the file is compiled to
* `Strings.Plain.memcpy`, …, `Strings.Plain.strcmp`: the functions a byte at a time
-/

namespace OpenkalMusl.Strings

open Bytes Bytes.Program

/-- The order of the bytes of a word. -/
inductive ByteOrder where
  | little
  | big
  deriving DecidableEq, Repr

/-- The size of `size_t`. -/
inductive WordSize where
  | four
  | eight
  deriving DecidableEq, Repr

def WordSize.bytes : WordSize → ℕ
  | .four => 4
  | .eight => 8

/-- What the file is compiled to, and on x86_64 what the processor was found to have. -/
inductive Variant where
  | avx2
  | sse2
  | neon
  | words (order : ByteOrder) (size : WordSize)
  deriving DecidableEq, Repr

/-- The bits of an address. -/
def Variant.addressBits : Variant → ℕ
  | .words _ size => 8 * size.bytes
  | _ => 64

/-- `OKM_PAGE_MIN`. -/
def pageMin : ℕ := 4096

/-- `TO_PAGE_END`. -/
def toPageEnd (p : ℕ) : ℕ := pageMin - p % pageMin

/-- The difference of two bytes as an `int`. -/
def minus (a b : UInt8) : ℤ := (a.toNat : ℤ) - (b.toNat : ℤ)

namespace Plain

def memcpy (turns d s n : ℕ) : Program ℕ :=
  loop (fun i => i < n)
    (fun i next => do
      let b ← byte (s + i)
      storeByte (d + i) b
      next (i + 1))
    (fun _ => pure d) turns 0

/-- Forward when the destination begins below the source, backward when it does not. -/
def memmove (turns d s n : ℕ) : Program ℕ :=
  if d < s then memcpy turns d s n
  else
    loop (fun n => n ≠ 0)
      (fun n next => do
        let b ← byte (s + (n - 1))
        storeByte (d + (n - 1)) b
        next (n - 1))
      (fun _ => pure d) turns n

def memset (turns d : ℕ) (c : UInt8) (n : ℕ) : Program ℕ :=
  loop (fun i => i < n)
    (fun i next => do
      storeByte (d + i) c
      next (i + 1))
    (fun _ => pure d) turns 0

def memcmp (turns l r n : ℕ) : Program ℤ :=
  loop (fun i => i < n)
    (fun i next => do
      let a ← byte (l + i)
      let b ← byte (r + i)
      if a = b then next (i + 1) else pure (minus a b))
    (fun _ => pure 0) turns 0

def strcmp (turns l r : ℕ) : Program ℤ :=
  loop (fun _ => true)
    (fun i next => do
      let a ← byte (l + i)
      let b ← byte (r + i)
      if a = b ∧ a ≠ 0 then next (i + 1) else pure (minus a b))
    (fun _ => fault) turns 0

def memchr (turns s : ℕ) (c : UInt8) (n : ℕ) : Program (Option ℕ) :=
  loop (fun i => i < n)
    (fun i next => do
      let a ← byte (s + i)
      if a = c then pure (some (s + i)) else next (i + 1))
    (fun _ => pure none) turns 0

def strchr (turns s : ℕ) (c : UInt8) : Program (Option ℕ) :=
  loop (fun _ => true)
    (fun i next => do
      let a ← byte (s + i)
      if a = c then pure (some (s + i)) else if a = 0 then pure none else next (i + 1))
    (fun _ => fault) turns 0

def strlen (turns s : ℕ) : Program ℕ :=
  loop (fun _ => true)
    (fun i next => do
      let a ← byte (s + i)
      if a = 0 then pure i else next (i + 1))
    (fun _ => fault) turns 0

end Plain

end OpenkalMusl.Strings
