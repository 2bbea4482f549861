import SyscallAdvent.Lib.Bytes

/-! The buffer allocator of `16-iouring/iouring.c`. The link and the canary of a
free buffer are the first twelve bytes of the memory that its owner used. Beside
the code's state stands a ledger of what callers did: who holds what, what was
given back, and what was overwritten. -/

namespace SyscallAdvent.Buffer

open Bytes

/-- `sizeof(struct buffer)` -/
def bufferSize : ℕ := 4096

def CANARY : ℕ := 0xdeadbeef

/-- `b->next` -/
def next (m : Memory) (b : ℕ) : ℕ := load m b 8

/-- `b->canary` -/
def canary (m : Memory) (b : ℕ) : ℕ := load m (b + 8) 4

def setNext (m : Memory) (b p : ℕ) : Memory := store m b 8 p

def setCanary (m : Memory) (b v : ℕ) : Memory := store m (b + 8) 4 v

/-- A result of `posix_memalign`: the return code, and what `ret` holds after the call. -/
structure Memalign where
  rc : ℤ
  ret : ℕ

/-- The memory, the head of the free stack, and the calls of `posix_memalign`
so far, the latest first. -/
structure Heap where
  mem : Memory
  freeBuffers : ℕ
  memaligns : List Memalign

/-- How a call of `alloc_buffer` ends. -/
inductive Outcome
  | returned (b : ℕ)
  | die
  | assertion
  deriving DecidableEq

/-- `r` is what `posix_memalign` does if it is called. -/
def allocBuffer (r : Memalign) (h : Heap) : Outcome × Heap :=
  if h.freeBuffers = 0 then
    let h := { h with memaligns := r :: h.memaligns }
    if r.rc < 0 then (.die, h) else (.returned r.ret, h)
  else
    let ret := h.freeBuffers
    let h := { h with freeBuffers := next h.mem ret }
    if canary h.mem ret ≠ CANARY then (.assertion, h)
    else (.returned ret, { h with mem := setCanary h.mem ret 0 })

def freeBuffer (b : ℕ) (h : Heap) : Heap :=
  let h := { h with mem := setCanary h.mem b CANARY }
  let h := { h with mem := setNext h.mem b h.freeBuffers }
  { h with freeBuffers := b }

/-! What callers do, and the ledger of it. -/

inductive Event
  | alloc (r : Memalign)
  | free (b : ℕ)
  | write (b : ℕ) (data : Fin bufferSize → BitVec 8)

/-- `held` are the buffers returned and not freed since, `freed` those freed and
not returned since, the last first; `dirty` are those written to since they were
last freed. `peak` is the largest number of buffers that were held at one time. -/
structure State where
  heap : Heap
  held : List ℕ
  freed : List ℕ
  dirty : List ℕ
  peak : ℕ
  running : Bool

def start (mem : Memory) : State := ⟨⟨mem, 0, []⟩, [], [], [], 0, true⟩

/-- Charges a call of `alloc_buffer` to the ledger. -/
def State.afterAlloc (s : State) : Outcome × Heap → State
  | (.returned b, h) =>
    { s with heap := h, held := b :: s.held, freed := s.freed.erase b,
             peak := max s.peak (s.held.length + 1) }
  | (_, h) => { s with heap := h, running := false }

def exec (s : State) : Event → State
  | .alloc r => s.afterAlloc (allocBuffer r s.heap)
  | .free b =>
    { s with heap := freeBuffer b s.heap, held := s.held.erase b, freed := b :: s.freed,
             dirty := s.dirty.filter (· ≠ b) }
  | .write b data =>
    { s with heap := { s.heap with mem := storeRange s.heap.mem b data }, dirty := b :: s.dirty }

/-! The assumptions on callers, each a policy that says which events may come next. -/

/-- The blocks obtained so far. -/
def Heap.blocks (h : Heap) : List ℕ := h.memaligns.map Memalign.ret

def Separate (b c : ℕ) : Prop := b + bufferSize ≤ c ∨ c + bufferSize ≤ b

/-- `posix_memalign` succeeds, with a block of its own. -/
structure Fresh (r : Memalign) (blocks : List ℕ) : Prop where
  ok : r.rc = 0
  nonnull : r.ret ≠ 0
  aligned : 512 ∣ r.ret
  fits : r.ret + bufferSize ≤ 2 ^ 64
  separate : ∀ b ∈ blocks, Separate r.ret b

/-- If `posix_memalign` is called, it succeeds. -/
def State.memalignOk (s : State) (r : Memalign) : Prop :=
  s.heap.freeBuffers = 0 → Fresh r s.heap.blocks

/-- Only held buffers are freed and written to. -/
def Owned (s : State) : Event → Prop
  | .alloc r => s.memalignOk r
  | .free b => b ∈ s.held
  | .write b _ => b ∈ s.held

/-- No call of `posix_memalign` has failed. -/
def Heap.NeverFailed (h : Heap) : Prop := ∀ r ∈ h.memaligns, r.rc = 0

instance (h : Heap) : Decidable h.NeverFailed :=
  inferInstanceAs (Decidable (∀ r ∈ h.memaligns, r.rc = 0))

/-- What successful calls of `posix_memalign` have stored. -/
def Heap.obtained (h : Heap) : List ℕ := (h.memaligns.filter (·.rc = 0)).map Memalign.ret

/-- Only held buffers are freed and written to, but `posix_memalign` may fail: it
returns a positive error number, and `ret` keeps what it held. -/
def Exhaustible (s : State) : Event → Prop
  | .alloc r => s.heap.freeBuffers = 0 → Fresh r s.heap.obtained ∨ 0 < r.rc
  | .free b => b ∈ s.held
  | .write b _ => b ∈ s.held

/-- Freed buffers are freed again, and are written to if the canary does not stay. -/
def Faulty (s : State) : Event → Prop
  | .alloc r => s.memalignOk r
  | .free b => b ∈ s.held ∨ b ∈ s.freed
  | .write b data =>
    b ∈ s.held ∨ b ∈ s.freed ∧ canary (storeRange s.heap.mem b data) b ≠ CANARY

/-- A call of `alloc_buffer` returns a block that was obtained and that nobody
holds, or it ends the process through `die`. -/
def Survives (s : State) : Event → Prop
  | .alloc r =>
    match allocBuffer r s.heap with
    | (.returned b, h) => b ∈ h.obtained ∧ b ∉ s.held
    | (.die, _) => True
    | (.assertion, _) => False
  | .free _ => True
  | .write _ _ => True

def Step (policy : State → Event → Prop) (s : State) (e : Event) (s' : State) : Prop :=
  s.running = true ∧ policy s e ∧ exec s e = s'

end SyscallAdvent.Buffer
