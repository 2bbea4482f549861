import Mathlib.Algebra.BigOperators.Group.Finset.Basic
import Mathlib.Algebra.Field.Rat
import Mathlib.Data.BitVec
import SyscallAdvent.Lib.Loop
import SyscallAdvent.Lib.SeekFile

/-! `measure` and `main` of `11-sendfile/sendfile.c`. The copy implementations are
given; times and rates are exact. `main` is modelled from the two open files on,
with every state of the files that a copy leaves behind logged. -/

namespace SyscallAdvent.Sendfile

open CLoop SeekFile

/-- The files behind `fd_in` and `fd_out`. -/
structure Files where
  fdIn : OpenFile (BitVec 8)
  fdOut : OpenFile (BitVec 8)

/-- A copy implementation: the bytes that it returns, the system calls that it
counts, and what it does to the files. -/
abbrev Copy := Files → (ℤ × ℤ) × Files

/-- The input is read to its end and written to the output, each at its offset. -/
def copied (s : Files) : Files :=
  let (data, fdIn) := s.fdIn.readAll
  ⟨fdIn, s.fdOut.writeAll data⟩

def Copies (copy : Copy) : Prop := ∀ s, (copy s).2 = copied s

structure Timespec where
  sec : ℤ
  nsec : ℤ

/-- The results of the system calls of one `measure`. -/
structure Host where
  lseek : ℤ
  ftruncate : ℤ
  startRc : ℤ
  startTime : Timespec
  endRc : ℤ
  endTime : Timespec

/-- No system call fails. -/
def Host.Ok (host : Host) : Prop :=
  0 ≤ host.lseek ∧ 0 ≤ host.ftruncate ∧ 0 ≤ host.startRc ∧ 0 ≤ host.endRc

/-- The bytes per second; `none` is `die`. -/
def measure (host : Host) (copy : Copy) (s : Files) : Option (ℚ × Files) :=
  if host.lseek < 0 then none
  else
    let s := { s with fdIn := s.fdIn.lseek 0 }
    if host.ftruncate < 0 then none
    else
      let s := { s with fdOut := s.fdOut.ftruncate 0 }
      if host.startRc < 0 then none
      else
        let ((bytes, _), s) := copy s
        if host.endRc < 0 then none
        else
          let delta : ℚ := (host.endTime.sec - host.startTime.sec : ℤ)
          let delta := delta + (host.endTime.nsec - host.startTime.nsec : ℤ) / 1000000000
          some (bytes / delta, s)

/-- The sums of the rates, and the files after the warm-up and after each
`measure` so far, in this order. -/
structure Progress where
  files : Files
  sendfile : ℚ
  write : ℚ
  log : List Files

/-- What a run of `main` meets: the `k`-th `measure` and the `k`-th call of either function. -/
structure World where
  hosts : ℕ → Host
  copySendfile : ℕ → Copy
  copyWrite : ℕ → Copy

def oneRound (w : World) (i : ℕ) (p : Progress) : Option Progress := do
  let (rate, s) ← measure (w.hosts (2 * i)) (w.copySendfile i) p.files
  let p := { p with files := s, sendfile := p.sendfile + rate, log := p.log ++ [s] }
  let (rate, s) ← measure (w.hosts (2 * i + 1)) (w.copyWrite (i + 1)) p.files
  return { p with files := s, write := p.write + rate, log := p.log ++ [s] }

/-- The first `copy_write` warms up the buffer cache. -/
def main (w : World) (input : List (BitVec 8)) (rounds : ℤ) (fuel : ℕ) : Option Progress :=
  let s := (w.copyWrite 0 ⟨⟨input, 0⟩, ⟨[], 0⟩⟩).2
  forLoop (fun i : ℤ => decide (i < rounds)) (· + 1) (fun i p => oneRound w i.toNat p) fuel 0
    ⟨s, 0, 0, [s]⟩

/-- `main` goes through, and every copy it made is complete and exact. -/
def CopiesFaithfully (w : World) (input : List (BitVec 8)) (rounds : ℤ) : Prop :=
  ∃ fuel p, main w input rounds fuel = some p ∧ p.log.length = 2 * rounds.toNat + 1 ∧
    ∀ s ∈ p.log, s.fdOut.content = s.fdIn.content

/-- The time that `measure` takes, in seconds. -/
def Host.delta (host : Host) : ℚ :=
  (host.endTime.sec - host.startTime.sec : ℤ) +
    (host.endTime.nsec - host.startTime.nsec : ℤ) / 1000000000

/-- The two averages that `main` prints in the end, in MiB per second. -/
def averages (p : Progress) (rounds : ℤ) : ℚ × ℚ :=
  (p.sendfile / rounds / (1024 * 1024), p.write / rounds / (1024 * 1024))

/-- The copy returns how many bytes it has copied. -/
def Counts (copy : Copy) : Prop := ∀ s, (copy s).1.1 = s.fdIn.readAll.1.length

/-- Rounds of so many bytes each, with their times: their rate is that of all of
them together if all times are equal or there are no bytes, and else less than `average`. -/
def Overstates (average : ℚ) (bytes n : ℕ) (time : ℕ → ℚ) : Prop :=
  let rate := n * bytes / (∑ i ∈ Finset.range n, time i) / (1024 * 1024)
  rate ≤ average ∧ (rate = average ↔ bytes = 0 ∨ ∀ i < n, ∀ j < n, time i = time j)

end SyscallAdvent.Sendfile
