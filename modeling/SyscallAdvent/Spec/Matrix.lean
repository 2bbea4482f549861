import Mathlib.Algebra.Group.Defs
import Mathlib.Logic.Function.Basic
import SyscallAdvent.Lib.Loop

/-! `19-perf/matrix.c` and the part of `perf.c` that uses it. The element type
is abstract. Indices that the source computes in `int` and `unsigned` are 32-bit
words; pointers are a matrix and an element offset, and adding to a pointer does
not wrap. Every element that is read or written is logged. -/

namespace SyscallAdvent.Matrix

open CLoop

/-- `A`, `B`, `C0` and `C1` of `main`; each is an allocation of its own. -/
inductive Mat
  | a
  | b
  | c0
  | c1
  deriving DecidableEq

abbrev Ptr := Mat × ℕ

/-- The matrix elements and the accesses so far, the latest first. -/
structure Heap (α : Type*) where
  elem : Mat → ℕ → α
  log : List Ptr

section

variable {α : Type*}

def Heap.load (h : Heap α) (p : Ptr) : α × Heap α :=
  (h.elem p.1 p.2, { h with log := p :: h.log })

def Heap.store (h : Heap α) (p : Ptr) (v : α) : Heap α where
  elem := Function.update h.elem p.1 (Function.update (h.elem p.1) p.2 v)
  log := p :: h.log

/-- `calloc(dim * dim, sizeof(double))`: the product wraps at 32 bits. -/
def allocated (dim : BitVec 32) : ℕ := (dim * dim).toNat

def createMatrix [Zero α] (m : Mat) (dim : BitVec 32) (h : Heap α) : Heap α :=
  { h with elem := Function.update h.elem m fun i => if i < allocated dim then 0 else h.elem m i }

/-- The loop stores what the calls of `random()` give, in turn. -/
def createRandomMatrix [Zero α] (random : ℕ → α) (m : Mat) (dim : BitVec 32) (fuel : ℕ)
    (h : Heap α) : Option (Heap α) :=
  forLoop (fun i : BitVec 32 => i.ult (dim * dim)) (· + 1)
    (fun i h => some (h.store (m, i.toNat) (random i.toNat))) fuel 0 (createMatrix m dim h)

/-- `CLS / sizeof(double)` -/
def SM : BitVec 32 := 64 / 8

variable [Add α] [Mul α]

/-- The innermost body: two elements of the result row at once. -/
def addProducts (B C : Mat) (rres rmul2 : ℕ) (m1d : α) (j2 : BitVec 32) (h : Heap α) : Heap α :=
  let (m2₀, h) := h.load (B, rmul2 + j2.toNat)
  let (m2₁, h) := h.load (B, rmul2 + j2.toNat + 1)
  let (r2₀, h) := h.load (C, rres + j2.toNat)
  let (r2₁, h) := h.load (C, rres + j2.toNat + 1)
  let h := h.store (C, rres + j2.toNat) (m2₀ * m1d + r2₀)
  h.store (C, rres + j2.toNat + 1) (m2₁ * m1d + r2₁)

def loopJ2 (B C : Mat) (rres rmul2 : ℕ) (m1d : α) (fuel : ℕ) (h : Heap α) : Option (Heap α) :=
  forLoop (fun j2 : BitVec 32 => j2.ult SM) (· + 2)
    (fun j2 h => some (addProducts B C rres rmul2 m1d j2 h)) fuel 0 h

/-- The header runs `k2` and `rmul2` together. -/
def loopK2 (N : BitVec 32) (A B C : Mat) (rres rmul1 : ℕ) (k j : BitVec 32) (fuel : ℕ)
    (h : Heap α) : Option (Heap α) :=
  forLoop (fun p : BitVec 32 × ℕ => p.1.ult SM) (fun p => (p.1 + 1, p.2 + N.toNat))
    (fun p h =>
      let (m1d, h) := h.load (A, rmul1 + p.1.toNat)
      loopJ2 B C rres p.2 m1d fuel h) fuel (0, (k * N + j).toNat) h

/-- The header runs `i2`, `rres` and `rmul1` together. The prefetch of `rmul1[8]` reads nothing. -/
def loopI2 (N : BitVec 32) (A B C : Mat) (i j k : BitVec 32) (fuel : ℕ) (h : Heap α) :
    Option (Heap α) :=
  forLoop (fun p : BitVec 32 × ℕ × ℕ => p.1.ult SM)
    (fun p => (p.1 + 1, p.2.1 + N.toNat, p.2.2 + N.toNat))
    (fun p h => loopK2 N A B C p.2.1 p.2.2 k j fuel h) fuel
    (0, (i * N + j).toNat, (i * N + k).toNat) h

def loopK (N : BitVec 32) (A B C : Mat) (i j : BitVec 32) (fuel : ℕ) (h : Heap α) :
    Option (Heap α) :=
  forLoop (fun k : BitVec 32 => k.ult N) (· + SM)
    (fun k h => loopI2 N A B C i j k fuel h) fuel 0 h

def loopJ (N : BitVec 32) (A B C : Mat) (i : BitVec 32) (fuel : ℕ) (h : Heap α) :
    Option (Heap α) :=
  forLoop (fun j : BitVec 32 => j.ult N) (· + SM) (fun j h => loopK N A B C i j fuel h) fuel 0 h

def matrixmulDrepper (N : BitVec 32) (A B C : Mat) (fuel : ℕ) (h : Heap α) : Option (Heap α) :=
  forLoop (fun i : BitVec 32 => i.ult N) (· + SM) (fun i h => loopJ N A B C i fuel h) fuel 0 h

variable [Zero α]

/-- `sum += A[i * N + k] * B[k * N + j]` for all `k`, with `sum` beside the heap. -/
def naiveK (N : BitVec 32) (A B : Mat) (i j : BitVec 32) (fuel : ℕ) (h : Heap α) :
    Option (α × Heap α) :=
  forLoop (fun k : BitVec 32 => k.ult N) (· + 1)
    (fun k p =>
      let (a, h) := p.2.load (A, (i * N + k).toNat)
      let (b, h) := h.load (B, (k * N + j).toNat)
      some (p.1 + a * b, h)) fuel 0 (0, h)

def naiveJ (N : BitVec 32) (A B C : Mat) (i : BitVec 32) (fuel : ℕ) (h : Heap α) :
    Option (Heap α) :=
  forLoop (fun j : BitVec 32 => j.ult N) (· + 1)
    (fun j h => (naiveK N A B i j fuel h).map fun (sum, h) =>
      h.store (C, (i * N + j).toNat) sum) fuel 0 h

def matrixmulNaive (N : BitVec 32) (A B C : Mat) (fuel : ℕ) (h : Heap α) : Option (Heap α) :=
  forLoop (fun i : BitVec 32 => i.ult N) (· + 1) (fun i h => naiveJ N A B C i fuel h) fuel 0 h

/-- One comparison. `mismatch` is the test of `delta = 1.0 - C1[i] / C0[i]` against the 0.1% margin. -/
def compareElem (mismatch : α → α → Bool) (p : BitVec 32 × Option ℤ × Heap α) :
    BitVec 32 × Option ℤ × Heap α :=
  let (c1, h) := p.2.2.load (.c1, p.1.toNat)
  let (c0, h) := h.load (.c0, p.1.toNat)
  if mismatch c1 c0 then (p.1, some (-1), h) else (p.1 + 1, none, h)

/-- The comparison loop, with the value that `main` returns early. -/
def compareLoop (mismatch : α → α → Bool) (dim : BitVec 32) (fuel : ℕ) (h : Heap α) :
    Option (Option ℤ × Heap α) :=
  (whileLoop (fun p => p.2.1.isNone && p.1.ult (dim * dim))
    (fun p => some (compareElem mismatch p)) fuel (0, none, h)).map Prod.snd

/-- The check of the dimension that `main` makes. -/
def accepted (dim : BitVec 32) : Bool := dim &&& (dim - 1) == 0

/-- `main` from the parsed dimension on, with all allocations succeeding: the
exit code and the heap. A refused dimension touches no matrix. -/
def perfMain (random : Mat → ℕ → α) (mismatch : α → α → Bool) (dim : BitVec 32) (fuel : ℕ)
    (h : Heap α) : Option (ℤ × Heap α) := do
  if accepted dim then
    let h ← createRandomMatrix (random .a) .a dim fuel h
    let h ← createRandomMatrix (random .b) .b dim fuel h
    let h := createMatrix .c1 dim (createMatrix .c0 dim h)
    let h ← matrixmulDrepper dim .a .b .c0 fuel h
    let h ← matrixmulNaive dim .a .b .c1 fuel h
    let (ret, h) ← compareLoop mismatch dim fuel h
    return (ret.getD 0, h)
  else
    return (1, h)

end

end SyscallAdvent.Matrix
