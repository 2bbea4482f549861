import SyscallAdvent.Proofs.RseqSchedule

/-! The entries that the operations touch. The array has as many entries as
processors are online, but it is indexed by their ids, so it suffices exactly
where no id is left out. -/

namespace SyscallAdvent.Rseq

open Transition

/-- Whenever a thread is about to work on an entry, this one is in the array, and
if the operation locks it, `main` has initialised its mutex before the start. -/
def AccessesInside (cfg : Config) (mem : ℕ → BitVec 64) : Prop :=
  ∀ evs s, Run cfg mem evs s → ∀ t i rest, (s.threads t).ctl = .run (i :: rest) → i ≠ .getcpu →
    (s.threads t).cpuId < cfg.host.CPUS ∧
      (.lock ∈ cfg.operation.code →
        ((start cfg mem).counters (s.threads t).cpuId).mutex = .free)

/-- If an id is left out, another one is too large. -/
theorem Host.exists_outside {host : Host} (h : ¬ host.Contiguous) :
    ∃ c ∈ host.online, host.CPUS ≤ c := by
  by_contra hall
  push Not at hall
  refine h (Finset.eq_of_subset_of_card_le (fun c hc => Finset.mem_range.2 (hall c hc)) ?_)
  rw [Finset.card_range]
  exact Nat.le_refl _

theorem Config.rounds_eq_zero_iff (cfg : Config) : cfg.rounds = 0 ↔ cfg.ROUNDS_PER_THREAD = 0 := by
  rw [← BitVec.toInt_inj, ← BitVec.toInt_inj, cfg.rounds_toInt]
  rfl

/-- On a host without gaps every id is an index. -/
theorem accessesInside_of_contiguous {cfg : Config} (hd : Disciplined cfg.operation.code)
    (hhost : cfg.host.Contiguous) (mem : ℕ → BitVec 64) : AccessesInside cfg mem := by
  intro evs s h t i rest hctl hi
  have hok := (run_accounted hd h).threads t
  have hlt := hhost.lt (hok.online hd hctl hi)
  refine ⟨hlt, fun _ => ?_⟩
  simp only [start, initLocks_apply, if_pos hlt]

/-- Without rounds no operation is called. -/
theorem accessesInside_of_rounds {cfg : Config} (hd : Disciplined cfg.operation.code)
    (hrounds : cfg.rounds = 0) (mem : ℕ → BitVec 64) : AccessesInside cfg mem := by
  intro evs s h t i rest hctl _
  have hlt := ((run_accounted hd h).threads t).running _ hctl
  rw [hrounds] at hlt
  exact absurd hlt (Nat.not_lt_zero _)

/-- A new thread calls the operation, and `getcpu` returns any online id. -/
theorem solo_fetch {cfg : Config} {t : Fin cfg.NTHREADS} {th : Thread}
    {m : Counters cfg.NTHREADS} {i : Instr} {rest : List Instr}
    (hcode : cfg.operation.code = .getcpu :: i :: rest) (hctl : th.ctl = .entry)
    (hi : th.i < cfg.rounds) {c : ℕ} (hc : c ∈ cfg.host.online) :
    ∃ th', Solo cfg t th m th' m ∧ th'.ctl = .run (i :: rest) ∧ th'.cpuId = c :=
  ⟨_, ((Solo.refl.snoc (.print hctl)).snoc (.call rfl hi)).snoc
    (.getcpu c (congrArg Ctl.run hcode) hc), rfl, rfl⟩

theorem exists_fetched {cfg : Config} {i : Instr} {rest : List Instr}
    (hcode : cfg.operation.code = .getcpu :: i :: rest) (t : Fin cfg.NTHREADS) (ht : t.val = 0)
    (hrounds : cfg.rounds ≠ 0) (mem : ℕ → BitVec 64) {c : ℕ} (hc : c ∈ cfg.host.online) :
    ∃ evs s, Run cfg mem evs s ∧ (s.threads t).ctl = .run (i :: rest) ∧
      (s.threads t).cpuId = c ∧ s.counters = (start cfg mem).counters := by
  obtain ⟨s, hcreate, hentry, hi, hcounters⟩ : ∃ s, Leads (Step cfg) (start cfg mem) s ∧
      (s.threads t).ctl = .entry ∧ (s.threads t).i = 0 ∧
      s.counters = (start cfg mem).counters :=
    ⟨_, .single (.create t ht.symm), by simp, by simp [start, Thread.init], rfl⟩
  have hpos : (s.threads t).i < cfg.rounds := hi ▸ (BitVec.pos_iff_ne_zero _).2 hrounds
  obtain ⟨th, hsolo, hctl, hcpu⟩ := solo_fetch (m := s.counters) hcode hentry hpos hc
  obtain ⟨evs, hrun⟩ := hcreate.trans hsolo.leads
  exact ⟨evs, _, hrun, by simpa using hctl, by simpa using hcpu, hcounters⟩

theorem not_accessesInside {cfg : Config}
    (hop : cfg.operation = operationRegular ∨ cfg.operation = operationLock)
    (hhost : ¬ cfg.host.Contiguous) (hN : cfg.NTHREADS ≠ 0) (hrounds : cfg.rounds ≠ 0)
    (mem : ℕ → BitVec 64) : ¬ AccessesInside cfg mem := by
  intro hinside
  obtain ⟨c, hc, hout⟩ := Host.exists_outside hhost
  obtain ⟨i, rest, hcode, hi⟩ : ∃ i rest, cfg.operation.code = .getcpu :: i :: rest ∧
      i ≠ .getcpu := by
    rcases hop with hop | hop
    · exact ⟨.load, [.store], by rw [hop]; rfl, by decide⟩
    · exact ⟨.lock, [.load, .store, .unlock], by rw [hop]; rfl, by decide⟩
  obtain ⟨evs, s, hrun, hctl, hcpu, -⟩ :=
    exists_fetched hcode ⟨0, Nat.pos_of_ne_zero hN⟩ rfl hrounds mem hc
  have hlt := (hinside evs s hrun _ i rest hctl hi).1
  omega

/-- All accesses are inside the array exactly if the online ids are those below
their number, or no operation is called at all. -/
theorem accesses_inside_iff (cfg : Config) (mem : ℕ → BitVec 64)
    (hop : cfg.operation = operationRegular ∨ cfg.operation = operationLock) :
    AccessesInside cfg mem ↔
      cfg.host.Contiguous ∨ cfg.NTHREADS = 0 ∨ cfg.ROUNDS_PER_THREAD = 0 := by
  have hd : Disciplined cfg.operation.code := by
    rcases hop with hop | hop <;> rw [hop] <;> decide
  rw [← cfg.rounds_eq_zero_iff]
  constructor
  · intro hinside
    by_contra hnot
    push Not at hnot
    exact not_accessesInside hop hnot.1 hnot.2.1 hnot.2.2 mem hinside
  · intro hcond
    rcases hcond with hhost | hN | hrounds
    · exact accessesInside_of_contiguous hd hhost mem
    · intro evs s _ t
      exact absurd t.isLt (by omega)
    · exact accessesInside_of_rounds hd hrounds mem

/-- `./rseq 2 lock` on processors 0 and 1. -/
theorem accesses_inside_two :
    AccessesInside ⟨2, 50000000, operationLock, ⟨{0, 1}, by decide⟩⟩ fun _ => 0 :=
  (accesses_inside_iff _ _ (Or.inr rfl)).2 (Or.inl (by decide))

/-- Processor 1 is offline: there are two entries, and the third is locked. -/
theorem accesses_outside_offline :
    ¬ AccessesInside ⟨1, 50000000, operationLock, ⟨{0, 2}, by decide⟩⟩ fun _ => 0 :=
  not_accessesInside (Or.inr rfl) (by decide) (by decide) (by decide) _

end SyscallAdvent.Rseq
