import Mathlib.Algebra.BigOperators.Group.Finset.Basic
import Mathlib.Data.BitVec
import SyscallAdvent.Lib.Bytes
import SyscallAdvent.Lib.Loop

/-! `calc_checksum` of `09-xattr/checksum.c`, with its pointers as 64-bit words
and every byte that it reads logged. Beside it stands the sum that its comments
describe. -/

namespace SyscallAdvent.Checksum

open Bytes CLoop

/-- The moving pointer, the sum so far and the addresses read, the latest first. -/
structure Scan where
  ptr : BitVec 64
  checksum : BitVec 64
  log : List ℕ

/-- `checksum += *ptr++` for a `uint64_t *`. -/
def addWord (m : Memory) (s : Scan) : Scan where
  ptr := s.ptr + 8
  checksum := s.checksum + BitVec.ofNat 64 (load m s.ptr.toNat 8)
  log := (List.range 8).map (s.ptr.toNat + ·) ++ s.log

/-- `checksum += *cptr` for a `char *`; the pointer stays where it is. -/
def addByte (m : Memory) (s : Scan) : Scan where
  ptr := s.ptr
  checksum := s.checksum + (m s.ptr.toNat).signExtend 64
  log := s.ptr.toNat :: s.log

def calcChecksum (m : Memory) (data len : BitVec 64) (fuel : ℕ) : Option Scan := do
  let s ← whileLoop (fun s : Scan => s.ptr.ult (data + len)) (fun s => some (addWord m s)) fuel
    ⟨data, 0, []⟩
  whileLoop (fun s : Scan => s.ptr.ult (data + len)) (fun s => some (addByte m s)) fuel s

/-- As many bytes as possible as `uint64_t`, the rest one by one as `char`. -/
def documentedSum (m : Memory) (data len : ℕ) : BitVec 64 :=
  ∑ i ∈ Finset.range (len / 8), BitVec.ofNat 64 (load m (data + 8 * i) 8) +
    ∑ i ∈ Finset.range (len % 8), (m (data + 8 * (len / 8) + i)).signExtend 64

/-- Whatever lies outside the range, a run ends with the documented sum of the
bytes that `m` has there, and reads no others. -/
def ChecksumRight (m : Memory) (data len : BitVec 64) : Prop :=
  ∀ m' : Memory, (∀ a, data.toNat ≤ a → a < data.toNat + len.toNat → m' a = m a) →
    ∃ fuel s, calcChecksum m' data len fuel = some s ∧
      s.checksum = documentedSum m data.toNat len.toNat ∧
      ∀ a ∈ s.log, data.toNat ≤ a ∧ a < data.toNat + len.toNat

/-- The memories differ, but only inside one full word of the range, or only in
one byte of the rest. -/
def LocallyModified (m m' : Memory) (data len : ℕ) : Prop :=
  m ≠ m' ∧
    ((∃ k, 8 * (k + 1) ≤ len ∧
      ∀ a, ¬ (data + 8 * k ≤ a ∧ a < data + 8 * (k + 1)) → m a = m' a) ∨
    ∃ i < len % 8, ∀ a, a ≠ data + 8 * (len / 8) + i → m a = m' a)

end SyscallAdvent.Checksum
