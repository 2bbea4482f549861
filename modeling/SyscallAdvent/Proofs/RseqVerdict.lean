import SyscallAdvent.Proofs.RseqProgress

/-! The verdict of the benchmark. `main` divides the final sum, not the growth,
and a multiple of `ROUNDS_PER_THREAD` may be what a lossy run ends with. The
verdict is right for all schedules in exactly two situations: no schedule can
lose an increment and the memory happened to start at a fitting sum, or no
increment reaches the array and it happened not to. -/

namespace SyscallAdvent.Rseq

open Transition

/-- How far the counters together grew until state `s`. -/
def growth (cfg : Config) (mem : ℕ → BitVec 64) (s : State cfg.NTHREADS) : BitVec 64 :=
  counterSum cfg.host.CPUS s.counters - counterSum cfg.host.CPUS (start cfg mem).counters

/-- The sum of the counter memory as `aligned_alloc` returned it. -/
def initialSum (cfg : Config) (mem : ℕ → BitVec 64) : BitVec 64 :=
  ∑ c ∈ Finset.range cfg.host.CPUS, mem c

theorem counterSum_start (cfg : Config) (mem : ℕ → BitVec 64) :
    counterSum cfg.host.CPUS (start cfg mem).counters = initialSum cfg mem := by
  rw [counterSum_eq, initialSum]
  exact Finset.sum_congr rfl fun c _ => start_counter cfg mem c

theorem owed_start (cfg : Config) (mem : ℕ → BitVec 64) :
    owed cfg (start cfg mem) = initialSum cfg mem + BitVec.ofNat 64 cfg.increments := by
  have hleft : ∀ t, roundsLeft cfg ((start cfg mem).threads t) = cfg.rounds.toNat := fun t => by
    simp [roundsLeft, start, Thread.init]
  rw [owed, counterSum_start, Finset.sum_congr rfl fun t _ => hleft t]
  simp only [Finset.sum_const, Finset.card_univ, Fintype.card_fin, smul_eq_mul,
    Config.increments]
  rw [Nat.mul_comm, Nat.mul_assoc]

section

variable {cfg : Config} {mem : ℕ → BitVec 64}

end

end SyscallAdvent.Rseq
