import SyscallAdvent.Proofs.RseqSchedule

/-! The lock variant. A mutex belongs to the thread that is between its lock and
its unlock, so an update of one entry is never interrupted by another, no write
is lost, and some thread can always go on. -/

namespace SyscallAdvent.Rseq

open Transition

/-- Between the lock and the unlock of entry `c`. -/
def Thread.InSection (th : Thread) (c : ℕ) : Prop :=
  ∃ rest, th.ctl = .run rest ∧ .unlock ∈ rest ∧ .lock ∉ rest ∧ th.cpuId = c

theorem lock_suffix {rest : List Instr} (h : rest <:+ operationLock.code) :
    rest = [] ∨ rest = [.unlock] ∨ rest = [.store, .unlock] ∨ rest = [.load, .store, .unlock] ∨
      rest = [.lock, .load, .store, .unlock] ∨ rest = operationLock.code := by
  have := (List.mem_tails _ _).2 h
  simp only [operationLock, List.tails, List.mem_cons, List.not_mem_nil, or_false] at this ⊢
  tauto

/-- What the operation still does after each of its steps. -/
def afterLockStep : Instr → List Instr
  | .getcpu => [.lock, .load, .store, .unlock]
  | .lock => [.load, .store, .unlock]
  | .load => [.store, .unlock]
  | .store => [.unlock]
  | .unlock => []

theorem lock_suffix_cons {i : Instr} {rest : List Instr} (h : i :: rest <:+ operationLock.code) :
    rest = afterLockStep i := by
  rcases lock_suffix h with h | h | h | h | h | h <;> cases h <;> rfl

/-- What a step does to the mutexes and to the section its thread is in: it
enters by taking a free mutex, it leaves by giving back its own, or neither. -/
theorem section_step {cfg : Config} {t : Fin cfg.NTHREADS} {th th' : Thread}
    {m m' : Counters cfg.NTHREADS} {a : Act} (hop : cfg.operation = operationLock)
    (h : ThreadStep cfg t th m a th' m') (hok : ThreadOk cfg th) :
    (∃ c, (m c).mutex = .free ∧ (∀ d, ¬ th.InSection d) ∧ (∀ d, th'.InSection d ↔ c = d) ∧
      m' = Function.update m c { m c with mutex := .held t }) ∨
    (∃ c, (∀ d, th.InSection d ↔ c = d) ∧ (∀ d, ¬ th'.InSection d) ∧
      m' = Function.update m c { m c with mutex := .free }) ∨
    ((∀ d, th'.InSection d ↔ th.InSection d) ∧ ∀ d, (m' d).mutex = (m d).mutex) := by
  have hs : ∀ {i rest}, th.ctl = .run (i :: rest) → i :: rest <:+ operationLock.code :=
    fun h1 => hop ▸ hok.suffix _ h1
  cases h with
  | print h1 | leave h1 => exact Or.inr (Or.inr ⟨fun d => by simp [Thread.InSection, h1], by simp⟩)
  | call h1 =>
    refine Or.inr (Or.inr ⟨fun d => ?_, by simp⟩)
    simp [Thread.InSection, h1, hop, operationLock]
  | ret h1 => exact Or.inr (Or.inr ⟨fun d => by simp [Thread.InSection, h1], by simp⟩)
  | getcpu c h1 h2 =>
    obtain rfl := lock_suffix_cons (hs h1)
    exact Or.inr (Or.inr ⟨fun d => by simp [Thread.InSection, h1, afterLockStep], by simp⟩)
  | lock h1 h2 =>
    obtain rfl := lock_suffix_cons (hs h1)
    exact Or.inl ⟨_, h2, by simp [Thread.InSection, h1],
      by simp [Thread.InSection, afterLockStep], rfl⟩
  | load h1 =>
    refine Or.inr (Or.inr ⟨fun d => ?_, by simp⟩)
    simp [Thread.InSection, h1]
  | store h1 =>
    refine Or.inr (Or.inr ⟨fun d => by simp [Thread.InSection, h1], fun d => ?_⟩)
    rcases eq_or_ne d th.cpuId with rfl | hne
    · simp
    · simp [hne]
  | unlock h1 h2 =>
    obtain rfl := lock_suffix_cons (hs h1)
    exact Or.inr (Or.inl ⟨_, by simp [Thread.InSection, h1, afterLockStep],
      by simp [Thread.InSection, afterLockStep], rfl⟩)

/-- Mutexes of the array are initialised, and exactly the thread in a section holds its mutex. -/
structure MutexOk {N : ℕ} (CPUS : ℕ) (s : State N) : Prop where
  ready : ∀ c < CPUS, (s.counters c).mutex ≠ .raw
  owner : ∀ c t, (s.counters c).mutex = .held t ↔ (s.threads t).InSection c

theorem mutexOk_start (cfg : Config) (mem : ℕ → BitVec 64) :
    MutexOk cfg.host.CPUS (start cfg mem) := by
  refine ⟨fun c hc => by simp [start, initLocks_apply, hc], fun c t => ?_⟩
  simp only [start, initLocks_apply, Thread.InSection, Thread.init]
  split_ifs <;> simp

theorem mutexOk_step {cfg : Config} (hop : cfg.operation = operationLock)
    {evs : List (Event cfg.NTHREADS)} {s s' : State cfg.NTHREADS} {e : Event cfg.NTHREADS}
    (h : Step cfg s e s') (ha : Accounted cfg evs s) (hm : MutexOk cfg.host.CPUS s) :
    MutexOk cfg.host.CPUS s' := by
  obtain ⟨hready, howner⟩ := hm
  cases h with
  | create t ht =>
    have hctl : (s.threads t).ctl = .unborn := (ha.unborn t).2 ht.le
    refine ⟨hready, fun c u => ?_⟩
    rw [howner c u]
    rcases eq_or_ne u t with rfl | hne
    · simp [Thread.InSection, hctl]
    · simp [hne]
  | @thread t a th m hs =>
    rcases section_step hop hs (ha.threads t) with
      ⟨c, hfree, hout, hin, rfl⟩ | ⟨c, hin, hout, rfl⟩ | ⟨hsame, hmut⟩
    · refine ⟨fun d hd => ?_, fun d u => ?_⟩
      · rcases eq_or_ne d c with rfl | hne
        · simp
        · simpa [hne] using hready d hd
      · have hno : ¬ (s.threads u).InSection c := by simp [← howner, hfree]
        rcases eq_or_ne d c with rfl | hd <;> rcases eq_or_ne u t with rfl | hu
        · simp [hin]
        · simp [hu, hu.symm, hno]
        · simp [hd, hd.symm, hin, howner, hout]
        · simp [hd, hu, howner]
    · refine ⟨fun d hd => ?_, fun d u => ?_⟩
      · rcases eq_or_ne d c with rfl | hne
        · simp
        · simpa [hne] using hready d hd
      · have hheld : (s.counters c).mutex = .held t := (howner c t).2 ((hin c).2 rfl)
        rcases eq_or_ne d c with rfl | hd <;> rcases eq_or_ne u t with rfl | hu
        · simp [hout]
        · simp [hu, ← howner, hheld, hu.symm]
        · simp [hd, hd.symm, hin, howner, hout]
        · simp [hd, hu, howner]
    · refine ⟨fun d hd => by simpa [hmut] using hready d hd, fun d u => ?_⟩
      rw [hmut, howner]
      rcases eq_or_ne u t with rfl | hu
      · simp [hsame]
      · simp [hu]
  | join t hc hj hr => exact ⟨hready, howner⟩

/-- Two sections of one entry are the same: its mutex has one holder. -/
theorem MutexOk.unique {N CPUS : ℕ} {s : State N} (hm : MutexOk CPUS s) {c : ℕ} {t t' : Fin N}
    (h : (s.threads t).InSection c) (h' : (s.threads t').InSection c) : t = t' := by
  have := ((hm.owner c t).2 h).symm.trans ((hm.owner c t').2 h')
  simpa using this

theorem inSection_of_pending {cfg : Config} {th : Thread} (hop : cfg.operation = operationLock)
    (hok : ThreadOk cfg th) (hp : th.Pending) : th.InSection th.cpuId := by
  obtain ⟨rest, hctl, hst, hld⟩ := hp
  refine ⟨rest, hctl, ?_, ?_, rfl⟩ <;>
    rcases lock_suffix (hop ▸ hok.suffix _ hctl) with rfl | rfl | rfl | rfl | rfl | rfl <;>
    simp_all [operationLock]

theorem MutexOk.exclusive {cfg : Config} {evs : List (Event cfg.NTHREADS)}
    {s : State cfg.NTHREADS} (hop : cfg.operation = operationLock) (ha : Accounted cfg evs s)
    (hm : MutexOk cfg.host.CPUS s) : Exclusive s := by
  intro t t' hp hp' hcpu
  have h := inSection_of_pending hop (ha.threads t) hp
  have h' := inSection_of_pending hop (ha.threads t') hp'
  exact hm.unique h (hcpu ▸ h')

theorem lock_disciplined {cfg : Config} (hop : cfg.operation = operationLock) :
    Disciplined cfg.operation.code := by
  rw [hop]
  decide

/-- The three invariants of the lock variant, along every run. -/
theorem run_lock {cfg : Config} (hop : cfg.operation = operationLock) {mem : ℕ → BitVec 64}
    {evs : List (Event cfg.NTHREADS)} {s : State cfg.NTHREADS} (h : Run cfg mem evs s) :
    Accounted cfg evs s ∧ MutexOk cfg.host.CPUS s ∧ Exact mem evs s := by
  have hd := lock_disciplined hop
  refine h.invariant (P := fun evs s => Accounted cfg evs s ∧ MutexOk cfg.host.CPUS s ∧
    Exact mem evs s) ⟨accounted_start cfg mem, mutexOk_start cfg mem, exact_start cfg mem⟩ ?_
  intro evs s e s' hinv hs
  obtain ⟨ha, hm, he⟩ := hinv
  exact ⟨accounted_step hd hs ha, mutexOk_step hop hs ha hm,
    exact_step hd hs ha (hm.exclusive hop ha) he⟩

/-- At a mutex that is not free. -/
def Waits {N : ℕ} (s : State N) (t : Fin N) : Prop :=
  ∃ rest, (s.threads t).ctl = .run (.lock :: rest) ∧
    (s.counters (s.threads t).cpuId).mutex ≠ .free

/-- A thread steps unless it is unborn, has returned or waits for a mutex. -/
theorem thread_enabled {cfg : Config} {s : State cfg.NTHREADS} (t : Fin cfg.NTHREADS)
    (hborn : (s.threads t).ctl ≠ .unborn) (hret : (s.threads t).ctl ≠ .returned)
    (hwait : ¬ Waits s t)
    (howns : ∀ rest, (s.threads t).ctl = .run (.unlock :: rest) →
      (s.counters (s.threads t).cpuId).mutex = .held t) :
    ∃ a th m, ThreadStep cfg t (s.threads t) s.counters a th m := by
  rcases hctl : (s.threads t).ctl with _ | _ | _ | rest | _
  · exact absurd hctl hborn
  · exact ⟨_, _, _, .print hctl⟩
  · by_cases hi : (s.threads t).i < cfg.rounds
    · exact ⟨_, _, _, .call hctl hi⟩
    · exact ⟨_, _, _, .leave hctl hi⟩
  · rcases rest with _ | ⟨_ | _ | _ | _ | _, rest⟩
    · exact ⟨_, _, _, .ret hctl⟩
    · obtain ⟨c, hc⟩ := cfg.host.nonempty
      exact ⟨_, _, _, .getcpu c hctl hc⟩
    · have hfree : (s.counters (s.threads t).cpuId).mutex = .free := by
        by_contra hmut
        exact hwait ⟨rest, hctl, hmut⟩
      exact ⟨_, _, _, .lock hctl hfree⟩
    · exact ⟨_, _, _, .load hctl⟩
    · exact ⟨_, _, _, .store hctl⟩
    · exact ⟨_, _, _, .unlock hctl (howns rest hctl)⟩
  · exact absurd hctl hret

/-- A thread at its unlock holds the mutex. -/
theorem MutexOk.holds {cfg : Config} (hop : cfg.operation = operationLock)
    {s : State cfg.NTHREADS} {t : Fin cfg.NTHREADS} (hm : MutexOk cfg.host.CPUS s)
    (hok : ThreadOk cfg (s.threads t)) {rest : List Instr}
    (hctl : (s.threads t).ctl = .run (.unlock :: rest)) :
    (s.counters (s.threads t).cpuId).mutex = .held t := by
  obtain rfl := lock_suffix_cons (hop ▸ hok.suffix _ hctl)
  exact (hm.owner _ t).2 ⟨_, hctl, by simp, by simp [afterLockStep], rfl⟩

/-- A thread that waits at an entry of the array waits for one that can step. -/
theorem MutexOk.holder_enabled {cfg : Config} (hop : cfg.operation = operationLock)
    {s : State cfg.NTHREADS} {t : Fin cfg.NTHREADS} (hm : MutexOk cfg.host.CPUS s)
    (hok : ∀ u, ThreadOk cfg (s.threads u)) (hw : Waits s t)
    (hcpu : (s.threads t).cpuId < cfg.host.CPUS) :
    ∃ u, (s.counters (s.threads t).cpuId).mutex = .held u ∧
      ∃ a th m, ThreadStep cfg u (s.threads u) s.counters a th m := by
  obtain ⟨rest, hctl, hmut⟩ := hw
  cases hmx : (s.counters (s.threads t).cpuId).mutex with
  | raw => exact absurd hmx (hm.ready _ hcpu)
  | free => exact absurd hmx hmut
  | held u =>
    -- the holder is behind its own lock, so it does not wait
    obtain ⟨rest', hctl', -, hnl, -⟩ := (hm.owner _ u).1 hmx
    have hwait : ¬ Waits s u := by
      rintro ⟨rest'', hr, -⟩
      rw [hctl'] at hr
      simp [Ctl.run.inj hr] at hnl
    exact ⟨u, rfl, thread_enabled u (by simp [hctl']) (by simp [hctl']) hwait
      fun _ => hm.holds hop (hok u)⟩

/-- While a thread has not returned, a thread is created or steps. -/
theorem lock_progress {cfg : Config} (hop : cfg.operation = operationLock)
    (hhost : cfg.host.Contiguous) {evs : List (Event cfg.NTHREADS)} {s : State cfg.NTHREADS}
    (ha : Accounted cfg evs s) (hm : MutexOk cfg.host.CPUS s)
    (hun : ∃ t, (s.threads t).ctl ≠ .returned) :
    ∃ e s', Step cfg s e s' ∧ ∀ t, e ≠ .join t := by
  obtain ⟨t, ht⟩ := hun
  rcases Nat.lt_or_ge s.created cfg.NTHREADS with hc | hc
  · exact ⟨_, _, Step.create ⟨s.created, hc⟩ rfl, by simp⟩
  by_cases hwait : Waits s t
  · have hcpu : (s.threads t).cpuId < cfg.host.CPUS := by
      obtain ⟨rest, hctl, -⟩ := hwait
      exact hhost.lt ((ha.threads t).online (lock_disciplined hop) hctl (by simp))
    obtain ⟨u, -, a, th, m, h⟩ := hm.holder_enabled hop ha.threads hwait hcpu
    exact ⟨_, _, .thread h, by simp⟩
  · obtain ⟨a, th, m, h⟩ :=
      thread_enabled t (ha.born hc t) ht hwait fun _ => hm.holds hop (ha.threads t)
    exact ⟨_, _, .thread h, by simp⟩

/-- The lock variant loses nothing: sections of one entry exclude each other,
counters count the writes, no unfinished thread leaves the process stuck, and
the threads together add `NTHREADS * ROUNDS_PER_THREAD`. -/
theorem lock_loses_nothing (cfg : Config) (mem : ℕ → BitVec 64)
    (hop : cfg.operation = operationLock) (hrounds : 0 ≤ cfg.ROUNDS_PER_THREAD.toInt)
    (hhost : cfg.host.Contiguous) (evs : List (Event cfg.NTHREADS)) (s : State cfg.NTHREADS)
    (h : Run cfg mem evs s) :
    (∀ c t t', (s.threads t).InSection c → (s.threads t').InSection c → t = t') ∧
    (∀ c, (s.counters c).counter - mem c = BitVec.ofNat 64 (writes c evs)) ∧
    ((∃ t, (s.threads t).ctl ≠ .returned) → ∃ e s', Step cfg s e s' ∧ ∀ t, e ≠ .join t) ∧
    ((∀ t, (s.threads t).ctl = .returned) →
      counterSum cfg.host.CPUS s.counters - counterSum cfg.host.CPUS (start cfg mem).counters =
        BitVec.ofInt 64 (cfg.NTHREADS * cfg.ROUNDS_PER_THREAD.toInt)) := by
  obtain ⟨ha, hm, he⟩ := run_lock hop h
  refine ⟨fun c t t' => hm.unique, fun c => ?_, lock_progress hop hhost ha hm, fun hret => ?_⟩
  · rw [he.counter]
    exact add_sub_cancel_left _ _
  · rw [he.counterSum ha hhost hret]
    rw [add_sub_cancel_left, Config.increments, hop, cfg.rounds_of_nonneg hrounds,
      show operationLock.code.count .store = 1 from rfl, mul_one, ← BitVec.ofInt_natCast,
      Nat.cast_mul, Int.toNat_of_nonneg hrounds]

/-- Two threads with three rounds each on two processors, all counters at 41. -/
theorem lock_loses_nothing_two :
    let cfg : Config := ⟨2, 3, operationLock, ⟨Finset.range 2, by decide⟩⟩
    ∃ evs s, Run cfg (fun _ => 41) evs s ∧ (∀ t, (s.threads t).ctl = .returned) ∧
      counterSum 2 s.counters - counterSum 2 (start cfg fun _ => 41).counters =
        BitVec.ofInt 64 (2 * (3 : BitVec 32).toInt) := by
  intro cfg
  have hhost : cfg.host.Contiguous := by simp [cfg, Host.Contiguous, Host.CPUS]
  have hop : selectOperation "lock" = some cfg.operation := rfl
  obtain ⟨evs, s, h, hj, -⟩ := exists_complete hop hhost.hasEntry .nil (parked_start cfg _) rfl
  have hret : ∀ t, (s.threads t).ctl = .returned := fun t =>
    (run_accounted (selectOperation_disciplined hop) h).joined t (by rw [hj]; exact t.isLt)
  exact ⟨evs, s, h, hret, (lock_loses_nothing cfg _ rfl (by decide) hhost evs s h).2.2.2 hret⟩

end SyscallAdvent.Rseq
