import Mathlib.Data.BitVec
import SyscallAdvent.Lib.Loop
import SyscallAdvent.Lib.Numeral

/-! The two functions `syscall_write`, of `02-clone/clone.c` and of
`06-sigaction/sigaction.c`. Numbers are words of the declared widths, and a
buffer lies in memory that may be written beyond its ends. -/

namespace SyscallAdvent.Printer

open CLoop Numeral

/-- The number that is left, the buffer, and how much of it is filled. -/
structure Digits (w : ℕ) where
  number : BitVec w
  buffer : Backfill (BitVec 8)
  len : ℕ

/-- The buffer with the end of the line, stored by `*(--p) = '\n'`. -/
def Digits.start {w : ℕ} (mem : ℤ → BitVec 8) (size : ℕ) (number : BitVec w) : Digits w :=
  ⟨number, (Backfill.start mem size).push (charByte '\n'), 1⟩

/-- What the calls of `write` were given, in order, where the write pointer is at
the end if there is a buffer, and which entries of the digit table were read. -/
structure Printed where
  writes : List (List (BitVec 8))
  p : Option ℤ
  indices : List ℤ
  ret : ℤ

/-! The printer of `02-clone`. -/

namespace Clone

/-- `*(--p) = (number % 10) + '0'; number /= 10; len++` -/
def putDigit (s : Digits 32) : Digits 32 where
  number := s.number.sdiv 10
  buffer := s.buffer.push ((s.number.srem 10 + 48).setWidth 8)
  len := s.len + 1

/-- `while (number > 0)` -/
def digitLoop (fuel : ℕ) (s : Digits 32) : Option (Digits 32) :=
  whileLoop (fun s => (0 : BitVec 32).slt s.number) (fun s => some (putDigit s)) fuel s

/-- `msg` is the string up to its terminator, `mem` the memory around `buffer[12]`. -/
def syscallWrite (mem : ℤ → BitVec 8) (msg : List (BitVec 8)) (number : BitVec 32) (fuel : ℕ) :
    Option Printed := do
  if number ≠ 0 then
    let sign := number.slt 0
    let number := if sign then number * -1 else number
    let s ← digitLoop fuel (.start mem 12 number)
    return ⟨msg :: ((if sign then [[charByte '-']] else []) ++ [s.buffer.read s.len]),
      some s.buffer.p, [], 0⟩
  else
    return ⟨[msg, [charByte '0', charByte '\n']], none, [], 0⟩

end Clone

/-! The printer of `06-sigaction`. -/

namespace Sigaction

/-- `"0123456789abcdef"[i]`; what is read outside the table is `around`. -/
def digitTable (around : ℤ → BitVec 8) (i : ℤ) : BitVec 8 :=
  if 0 ≤ i ∧ i ≤ 15 then charByte ("0123456789abcdef".toList.getD i.toNat ' ') else around i

/-- The loop variables, and the table entries read so far, the latest first. -/
structure Printing where
  digits : Digits 64
  indices : List ℤ

/-- `*(--p) = "0123456789abcdef"[number % base]; number /= base; len++` -/
def putDigit (around : ℤ → BitVec 8) (base : BitVec 64) (s : Printing) : Printing :=
  let i := (s.digits.number.srem base).toInt
  { digits :=
      { number := s.digits.number.sdiv base
        buffer := s.digits.buffer.push (digitTable around i)
        len := s.digits.len + 1 }
    indices := i :: s.indices }

/-- `do … while (number != 0)` -/
def digitLoop (around : ℤ → BitVec 8) (base : BitVec 64) (fuel : ℕ) (s : Printing) :
    Option Printing :=
  whileLoop (fun s => s.digits.number != 0) (fun s => some (putDigit around base s)) fuel
    (putDigit around base s)

/-- `base` is a `char`, which the operators extend. -/
def syscallWrite (around mem : ℤ → BitVec 8) (msg : List (BitVec 8)) (number : BitVec 64)
    (base : BitVec 8) (fuel : ℕ) : Option Printed := do
  let sign := number.slt 0
  let number := if sign then number * -1 else number
  let s ← digitLoop around (base.signExtend 64) fuel ⟨.start mem 64 number, []⟩
  return ⟨msg :: ((if sign then [[charByte '-']] else []) ++
      [s.digits.buffer.read s.digits.len]), some s.digits.buffer.p, s.indices, 0⟩

end Sigaction

/-- The message and the number are printed, whatever lies around the buffer and
the digit table, and nothing else there is touched. -/
def PrintsExactly (msg : List (BitVec 8)) (number : BitVec 64) (base : BitVec 8) : Prop :=
  ∀ around mem, ∃ fuel r, Sigaction.syscallWrite around mem msg number base fuel = some r ∧
    r.writes.flatten = msg ++ line base.toNat number.toInt ∧
    readLine base.toNat (r.writes.flatten.drop msg.length) = number.toInt ∧
    (∀ i ∈ r.indices, 0 ≤ i ∧ i ≤ 15) ∧ ∀ p ∈ r.p, 0 ≤ p

/-- The printers write the same bytes, neither of them in front of its buffer. -/
def Agree (msg : List (BitVec 8)) (number : BitVec 32) : Prop :=
  ∀ around mem mem', ∃ fuel r r', Clone.syscallWrite mem msg number fuel = some r ∧
    Sigaction.syscallWrite around mem' msg (number.signExtend 64) 10 fuel = some r' ∧
    r.writes.flatten = r'.writes.flatten ∧ (∀ p ∈ r.p, 0 ≤ p) ∧ ∀ p ∈ r'.p, 0 ≤ p

end SyscallAdvent.Printer
