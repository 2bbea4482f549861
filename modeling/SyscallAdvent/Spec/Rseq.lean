import Mathlib.Algebra.Ring.Int.Defs
import Mathlib.Data.Finset.Card
import Mathlib.Data.Finset.Range
import Mathlib.Logic.Function.Basic
import SyscallAdvent.Lib.Transition

/-! `23-rseq/rseq.c` and the operation of `rseq-asm.S`: the counter operations
as sequences of atomic steps, `thread_handler`'s loop around them, and `main`
from its parameters and the lock initialisation over thread creation and join to
the verdict.
Threads interleave freely; `getcpu` returns any online processor. -/

namespace SyscallAdvent.Rseq

/-- The processors `getcpu` can return. `get_nprocs` counts them, and a running
machine has at least one. -/
structure Host where
  online : Finset ℕ
  nonempty : online.Nonempty

/-- `int CPUS = get_nprocs();` -/
def Host.CPUS (host : Host) : ℕ := host.online.card

/-- The usual host: the processor ids are exactly the numbers below `CPUS`. -/
def Host.Contiguous (host : Host) : Prop := host.online = Finset.range host.CPUS

instance (host : Host) : Decidable host.Contiguous :=
  inferInstanceAs (Decidable (host.online = Finset.range host.CPUS))

/-- Some processor has an entry in an array of `CPUS` entries. -/
def Host.HasEntry (host : Host) : Prop := ∃ c ∈ host.online, c < host.CPUS

instance (host : Host) : Decidable host.HasEntry :=
  inferInstanceAs (Decidable (∃ c ∈ host.online, c < host.CPUS))

/-- A `pthread_mutex_t`: memory as `aligned_alloc` left it, or an initialised
mutex, free or held by a thread. -/
inductive Mutex (N : ℕ)
  | raw
  | free
  | held (t : Fin N)
  deriving DecidableEq

/-- `struct cacheline`; the padding bytes of `data` are not used. -/
structure Cacheline (N : ℕ) where
  counter : BitVec 64
  mutex : Mutex N
  deriving DecidableEq

/-- The atomic steps of the operations. `counters[cpu_id].counter += 1` is a
`load` and a `store`. -/
inductive Instr
  | getcpu
  | lock
  | load
  | store
  | unlock
  deriving DecidableEq

/-- An `operation_t`: its steps, and the `int` it returns. -/
structure Operation where
  code : List Instr
  ret : BitVec 32
  deriving DecidableEq

def operationRegular : Operation := ⟨[.getcpu, .load, .store], 0⟩

def operationLock : Operation := ⟨[.getcpu, .lock, .load, .store, .unlock], 0⟩

/-- The variants that the exercise leaves open return at once. -/
def operationAtomic : Operation := ⟨[], 0⟩

def operationRseqAtomic : Operation := ⟨[], 0⟩

/-- `rseq-asm.S`: `%eax` is cleared, the sequence from `.start_ip` to `.end_ip` is empty. -/
def operationRseq : Operation := ⟨[], 0⟩

/-- The `strcmp` chain of `main`; `none` is `usage`. -/
def selectOperation (MODE : String) : Option Operation :=
  if MODE = "rseq" then some operationRseq
  else if MODE = "getcpu-atomic" then some operationAtomic
  else if MODE = "rseq-atomic" then some operationRseqAtomic
  else if MODE = "regular" then some operationRegular
  else if MODE = "lock" then some operationLock
  else none

/-- What `main` has fixed before it creates the threads. `ROUNDS_PER_THREAD` is an `int`. -/
structure Config where
  NTHREADS : ℕ
  ROUNDS_PER_THREAD : BitVec 32
  operation : Operation
  host : Host

/-- Where a thread is in `thread_handler`; `run rest` is inside the operation
with the steps `rest` left. -/
inductive Ctl
  | unborn
  | entry
  | test
  | run (rest : List Instr)
  | returned
  deriving DecidableEq

/-- The locals of `thread_handler` and of the operation it is in; `tmp` is the
counter value that `load` read. -/
structure Thread where
  ctl : Ctl
  i : BitVec 64
  aborts : BitVec 64
  cpuId : ℕ
  tmp : BitVec 64
  deriving DecidableEq

def Thread.init : Thread := ⟨.unborn, 0, 0, 0, 0⟩

/-- `args.counters`: entries from `CPUS` on lie behind the allocated array. -/
abbrev Counters (N : ℕ) := ℕ → Cacheline N

/-- The steps of one thread; those that touch an entry name its index. -/
inductive Act
  | print
  | test
  | ret
  | getcpu (c : ℕ)
  | lock (c : ℕ)
  | load (c : ℕ)
  | store (c : ℕ)
  | unlock (c : ℕ)
  deriving DecidableEq

/-- `ROUNDS_PER_THREAD` as it is compared with the `uint64_t i` and divides the sum. -/
def Config.rounds (cfg : Config) : BitVec 64 := cfg.ROUNDS_PER_THREAD.signExtend 64

/-- One step of thread `t` in `thread_handler`. A mutex that was never
initialised cannot be locked. -/
inductive ThreadStep (cfg : Config) (t : Fin cfg.NTHREADS) :
    Thread → Counters cfg.NTHREADS → Act → Thread → Counters cfg.NTHREADS → Prop
  | print {th m} : th.ctl = .entry → ThreadStep cfg t th m .print { th with ctl := .test } m
  | call {th m} : th.ctl = .test → th.i < cfg.rounds →
      ThreadStep cfg t th m .test { th with ctl := .run cfg.operation.code } m
  | leave {th m} : th.ctl = .test → ¬ th.i < cfg.rounds →
      ThreadStep cfg t th m .test { th with ctl := .returned } m
  | ret {th m} : th.ctl = .run [] →
      ThreadStep cfg t th m .ret
        { th with ctl := .test, i := th.i + 1,
                  aborts := th.aborts + cfg.operation.ret.signExtend 64 } m
  | getcpu {th m rest} (c : ℕ) : th.ctl = .run (.getcpu :: rest) → c ∈ cfg.host.online →
      ThreadStep cfg t th m (.getcpu c) { th with ctl := .run rest, cpuId := c } m
  | lock {th m rest} : th.ctl = .run (.lock :: rest) → (m th.cpuId).mutex = .free →
      ThreadStep cfg t th m (.lock th.cpuId) { th with ctl := .run rest }
        (Function.update m th.cpuId { m th.cpuId with mutex := .held t })
  | load {th m rest} : th.ctl = .run (.load :: rest) →
      ThreadStep cfg t th m (.load th.cpuId)
        { th with ctl := .run rest, tmp := (m th.cpuId).counter } m
  | store {th m rest} : th.ctl = .run (.store :: rest) →
      ThreadStep cfg t th m (.store th.cpuId) { th with ctl := .run rest }
        (Function.update m th.cpuId { m th.cpuId with counter := th.tmp + 1 })
  | unlock {th m rest} : th.ctl = .run (.unlock :: rest) → (m th.cpuId).mutex = .held t →
      ThreadStep cfg t th m (.unlock th.cpuId) { th with ctl := .run rest }
        (Function.update m th.cpuId { m th.cpuId with mutex := .free })

/-- The process: `main` has created the threads below `created` and joined those below `joined`. -/
structure State (N : ℕ) where
  counters : Counters N
  threads : Fin N → Thread
  created : ℕ
  joined : ℕ
  aborts : BitVec 64

inductive Event (N : ℕ)
  | create (t : Fin N)
  | thread (t : Fin N) (a : Act)
  | join (t : Fin N)
  deriving DecidableEq

/-- One step of the process: `main` creates the next thread, a thread steps, or
`main` joins the next thread. -/
inductive Step (cfg : Config) :
    State cfg.NTHREADS → Event cfg.NTHREADS → State cfg.NTHREADS → Prop
  | create {s} (t : Fin cfg.NTHREADS) : s.created = t.val →
      Step cfg s (.create t)
        { s with created := s.created + 1,
                 threads := Function.update s.threads t { s.threads t with ctl := .entry } }
  | thread {s t a th m} : ThreadStep cfg t (s.threads t) s.counters a th m →
      Step cfg s (.thread t a)
        { s with threads := Function.update s.threads t th, counters := m }
  | join {s} (t : Fin cfg.NTHREADS) : s.created = cfg.NTHREADS → s.joined = t.val →
      (s.threads t).ctl = .returned →
      Step cfg s (.join t)
        { s with joined := s.joined + 1, aborts := s.aborts + (s.threads t).aborts }

/-- The loop of `pthread_mutex_init` calls. -/
def initLocks {N : ℕ} (CPUS : ℕ) (m : Counters N) : Counters N :=
  (List.range CPUS).foldl (fun m i => Function.update m i { m i with mutex := .free }) m

/-- The state before the first `pthread_create`. Nothing clears the counters:
`mem` is what the memory from `aligned_alloc` holds. -/
def start (cfg : Config) (mem : ℕ → BitVec 64) : State cfg.NTHREADS where
  counters := initLocks cfg.host.CPUS fun c => ⟨mem c, .raw⟩
  threads := fun _ => Thread.init
  created := 0
  joined := 0
  aborts := 0

/-- The loop of `main` that accumulates `sum`. -/
def counterSum {N : ℕ} (CPUS : ℕ) (m : Counters N) : BitVec 64 :=
  (List.range CPUS).foldl (fun sum i => sum + (m i).counter) 0

/-- All runs of the process from the initial counter memory `mem`. -/
abbrev Run (cfg : Config) (mem : ℕ → BitVec 64) :=
  Transition.Run (Step cfg) (start cfg mem)

end SyscallAdvent.Rseq
