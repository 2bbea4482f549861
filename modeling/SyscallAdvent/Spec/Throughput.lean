import Mathlib.Algebra.BigOperators.Group.List.Basic
import Mathlib.Algebra.Field.Rat
import Mathlib.Data.BitVec
import SyscallAdvent.Lib.Transition

/-! `print_throughput` of `10-epoll/epoll.c`, called with the same array of `n`
elements each time, and what callers do in between. Times and rates are exact.
The static time stamp is part of the state, and so are the lines printed. -/

namespace SyscallAdvent.Throughput

structure Timespec where
  sec : ℤ
  nsec : ℤ
  deriving DecidableEq

/-- In seconds. -/
def Timespec.value (t : Timespec) : ℚ := t.sec + t.nsec / 1000000000

/-- A reading of the clock, which was set after its epoch. -/
structure Timespec.Valid (t : Timespec) : Prop where
  sec : 0 < t.sec
  nsec : 0 ≤ t.nsec
  lt : t.nsec < 1000000000

instance (t : Timespec) : Decidable t.Valid :=
  decidable_of_iff (0 < t.sec ∧ 0 ≤ t.nsec ∧ t.nsec < 1000000000)
    ⟨fun h => ⟨h.1, h.2.1, h.2.2⟩, fun h => ⟨h.1, h.2, h.3⟩⟩

/-- A line, with what it was computed from: the reading, and the time that the
bytes are divided by. The rates are in MiB per second. -/
structure Line (n : ℕ) where
  now : Timespec
  delta : ℚ
  rates : Fin n → ℚ

/-- `last` and the array, and the lines so far, the latest first. -/
structure Meter (n : ℕ) where
  last : Timespec
  bytes : Fin n → BitVec 64
  lines : List (Line n)

/-- `clock` is what `clock_gettime` gives; `none` is `die`. -/
def printThroughput {n : ℕ} (clock : Except ℤ Timespec) (m : Meter n) : Option (Meter n) :=
  match clock with
  | .error _ => none
  | .ok now =>
    if now.sec > m.last.sec ∧ m.last.sec > 0 then
      let delta : ℚ := (now.sec - m.last.sec : ℤ)
      let delta := delta + (now.nsec - m.last.nsec : ℤ) / 1000000000
      let line : Line n := ⟨now, delta, fun i => (m.bytes i).toNat / delta / 1024 / 1024⟩
      some ⟨now, fun _ => 0, line :: m.lines⟩
    else if m.last.sec = 0 then some { m with last := now }
    else some m

inductive Event (n : ℕ)
  | add (i : Fin n) (count : ℕ)
  | call (now : Timespec)

/-- Beside the meter: what was added to each element, and the reading of the first call. -/
structure State (n : ℕ) where
  meter : Meter n
  added : Fin n → ℕ
  first : Option Timespec

def start {n : ℕ} (bytes : Fin n → BitVec 64) : State n := ⟨⟨⟨0, 0⟩, bytes, []⟩, fun _ => 0, none⟩

def exec {n : ℕ} (s : State n) : Event n → Option (State n)
  | .add i count =>
    some { s with
      meter := { s.meter with
        bytes := Function.update s.meter.bytes i (s.meter.bytes i + BitVec.ofNat 64 count) }
      added := Function.update s.added i (s.added i + count) }
  | .call now => (printThroughput (.ok now) s.meter).map fun m =>
    { s with meter := m, first := s.first.or (some now) }

def Step {n : ℕ} (policy : State n → Event n → Prop) (s : State n) (e : Event n)
    (s' : State n) : Prop :=
  policy s e ∧ exec s e = some s'

/-- All readings of the clock are valid; it may step backwards. -/
def Clocked {n : ℕ} (_ : State n) : Event n → Prop
  | .add _ _ => True
  | .call now => now.Valid

/-- Besides, no element overflows. -/
def Counted {n : ℕ} (s : State n) : Event n → Prop
  | .add i count => (s.meter.bytes i).toNat + count < 2 ^ 64
  | .call now => now.Valid

/-- The bytes that the lines report of an element. -/
def reported {n : ℕ} (lines : List (Line n)) (i : Fin n) : ℚ :=
  (lines.map fun l => l.rates i * 1024 * 1024 * l.delta).sum

/-- Any two lines are a second apart, and all are from the first call. -/
def Throttled {n : ℕ} (s : State n) : Prop :=
  s.meter.lines.Pairwise (fun later earlier => earlier.now.value + 1 ≤ later.now.value) ∧
    ∀ l ∈ s.meter.lines, ∀ t, s.first = some t → t.value + 1 ≤ l.now.value

/-- The clock is not in the second after that of the time stamp, and earlier in it. -/
def Apart {n : ℕ} (s : State n) : Event n → Prop
  | .add _ _ => True
  | .call now => ¬ (now.sec = s.meter.last.sec + 1 ∧ now.nsec < s.meter.last.nsec)

end SyscallAdvent.Throughput
