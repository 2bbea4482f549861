import SyscallAdvent.Proofs.RseqBounds
import SyscallAdvent.Proofs.RseqLock

/-! The benchmark as a whole. Every event of a run is the creation of a thread, a
join or a step of a thread, and all three are bounded, so every run ends. It ends
with the last join, unless a thread has locked a mutex behind the array: nobody
initialised that one, and the thread waits for ever. -/

namespace SyscallAdvent.Rseq

open Transition

/-- The thread that takes the step. -/
def Event.actor {N : ℕ} : Event N → Option (Fin N)
  | .thread t _ => some t
  | _ => none

/-- The calls of the operation from which thread `t` has come back. -/
def calls {N : ℕ} (t : Fin N) (evs : List (Event N)) : ℕ := evs.count (.thread t .ret)

/-- The steps of thread `t`. -/
def steps {N : ℕ} (t : Fin N) (evs : List (Event N)) : ℕ := (evs.filterMap Event.actor).count t

theorem calls_snoc {N : ℕ} (t : Fin N) (evs : List (Event N)) (e : Event N) :
    calls t (evs ++ [e]) = calls t evs + if e = .thread t .ret then 1 else 0 := by
  unfold calls
  rw [List.count_append, List.count_singleton]
  simp

theorem steps_snoc {N : ℕ} (t : Fin N) (evs : List (Event N)) (e : Event N) :
    steps t (evs ++ [e]) = steps t evs + if e.actor = some t then 1 else 0 :=
  count_filterMap_snoc Event.actor t evs e

/-- The steps a thread has behind it, read off its position: one for the
`printf`, two more than the operation has in each round, one to leave the loop. -/
def stepsDone (code : List Instr) (th : Thread) : ℕ :=
  th.i.toNat * (code.length + 2) +
    match th.ctl with
    | .unborn | .entry => 0
    | .test => 1
    | .run rest => 2 + (code.length - rest.length)
    | .returned => 2

theorem round_step {cfg : Config} {t : Fin cfg.NTHREADS} {th th' : Thread}
    {m m' : Counters cfg.NTHREADS} {a : Act} (h : ThreadStep cfg t th m a th' m')
    (hok : ThreadOk cfg th) : th'.i.toNat = th.i.toNat + if a = .ret then 1 else 0 := by
  cases h with
  | ret h1 => exact toNat_succ_of_lt (hok.running _ h1)
  | _ => rfl

/-- An instruction is one step. -/
theorem stepsDone_advance {cfg : Config} {th th' : Thread} (hok : ThreadOk cfg th) {i : Instr}
    {rest : List Instr} (h : th.ctl = .run (i :: rest)) (hctl : th'.ctl = .run rest)
    (hround : th'.i = th.i) :
    stepsDone cfg.operation.code th' = stepsDone cfg.operation.code th + 1 := by
  have hle := (hok.suffix _ h).length_le
  simp only [stepsDone, h, hctl, hround, List.length_cons] at hle ⊢
  omega

theorem stepsDone_step {cfg : Config} {t : Fin cfg.NTHREADS} {th th' : Thread}
    {m m' : Counters cfg.NTHREADS} {a : Act} (h : ThreadStep cfg t th m a th' m')
    (hok : ThreadOk cfg th) :
    stepsDone cfg.operation.code th' = stepsDone cfg.operation.code th + 1 := by
  cases h with
  | print h1 => simp [stepsDone, h1]
  | call h1 h2 => simp [stepsDone, h1]
  | leave h1 h2 => simp [stepsDone, h1]
  | ret h1 =>
    have hsucc := toNat_succ_of_lt (hok.running _ h1)
    simp only [stepsDone, h1, hsucc, List.length_nil, Nat.add_mul]
    omega
  | getcpu c h1 h2 => exact stepsDone_advance hok h1 rfl rfl
  | lock h1 h2 => exact stepsDone_advance hok h1 rfl rfl
  | load h1 => exact stepsDone_advance hok h1 rfl rfl
  | store h1 => exact stepsDone_advance hok h1 rfl rfl
  | unlock h1 h2 => exact stepsDone_advance hok h1 rfl rfl

theorem stepsDone_le {cfg : Config} {th : Thread} (hok : ThreadOk cfg th) :
    stepsDone cfg.operation.code th ≤
      cfg.rounds.toNat * (cfg.operation.code.length + 2) + 2 := by
  have hbound := Nat.mul_le_mul_right (cfg.operation.code.length + 2) hok.bound
  unfold stepsDone
  rcases hctl : th.ctl with _ | _ | _ | rest | _ <;> simp only
  case run =>
    have hlt := Nat.mul_le_mul_right (cfg.operation.code.length + 2) (hok.running _ hctl)
    rw [Nat.succ_mul] at hlt
    omega
  all_goals omega

/-- The trace of a run shows each thread's calls and steps. -/
structure Counted (cfg : Config) (evs : List (Event cfg.NTHREADS))
    (s : State cfg.NTHREADS) : Prop where
  calls : ∀ t, calls t evs = (s.threads t).i.toNat
  steps : ∀ t, steps t evs = stepsDone cfg.operation.code (s.threads t)

theorem counted_step {cfg : Config} {evs : List (Event cfg.NTHREADS)}
    {s s' : State cfg.NTHREADS} {e : Event cfg.NTHREADS} (h : Step cfg s e s')
    (ha : Accounted cfg evs s) (hc : Counted cfg evs s) : Counted cfg (evs ++ [e]) s' := by
  obtain ⟨hcalls, hsteps⟩ := hc
  cases h with
  | create t ht =>
    have hctl : (s.threads t).ctl = .unborn := (ha.unborn t).2 ht.le
    refine ⟨fun u => ?_, fun u => ?_⟩
    · rw [calls_snoc, hcalls]
      rcases eq_or_ne u t with rfl | hne
      · simp
      · simp [hne]
    · rw [steps_snoc, hsteps]
      rcases eq_or_ne u t with rfl | hne
      · simp [stepsDone, hctl, Event.actor]
      · simp [hne, Event.actor]
  | @thread t a th m hs =>
    refine ⟨fun u => ?_, fun u => ?_⟩
    · rw [calls_snoc, hcalls]
      rcases eq_or_ne u t with rfl | hne
      · simp [round_step hs (ha.threads u)]
      · simp [hne, hne.symm]
    · rw [steps_snoc, hsteps]
      rcases eq_or_ne u t with rfl | hne
      · simp [stepsDone_step hs (ha.threads u), Event.actor]
      · simp [hne, hne.symm, Event.actor]
  | join t hc hj hr =>
    refine ⟨fun u => ?_, fun u => ?_⟩
    · simp [calls_snoc, hcalls]
    · simp [steps_snoc, hsteps, Event.actor]

theorem run_counted {cfg : Config} (hd : Disciplined cfg.operation.code) {mem : ℕ → BitVec 64}
    {evs : List (Event cfg.NTHREADS)} {s : State cfg.NTHREADS} (h : Run cfg mem evs s) :
    Accounted cfg evs s ∧ Counted cfg evs s := by
  refine h.invariant (P := fun evs s => Accounted cfg evs s ∧ Counted cfg evs s)
    ⟨accounted_start cfg mem, ?_⟩ ?_
  · constructor <;> intro t <;> simp [calls, steps, stepsDone, start, Thread.init]
  · intro evs s e s' hinv hs
    exact ⟨accounted_step hd hs hinv.1, counted_step hs hinv.1 hinv.2⟩

/-- Only the lock variant has a mutex. -/
theorem eq_lock_of_mem {MODE : String} {op : Operation} (hop : selectOperation MODE = some op)
    (h : .lock ∈ op.code ∨ .unlock ∈ op.code) : op = operationLock := by
  rcases selectOperation_cases hop with ⟨-, rfl⟩ | ⟨-, rfl⟩ | ⟨-, -, rfl⟩
  · simp [operationRegular] at h
  · rfl
  · simp at h

theorem run_enabled {cfg : Config} {MODE : String}
    (hop : selectOperation MODE = some cfg.operation) {mem : ℕ → BitVec 64}
    {evs : List (Event cfg.NTHREADS)} {s : State cfg.NTHREADS} (h : Run cfg mem evs s)
    (t : Fin cfg.NTHREADS) (hret : (s.threads t).ctl ≠ .returned) :
    (∃ u s', Step cfg s (.create u) s') ∨ (∃ a s', Step cfg s (.thread t a) s') ∨ Waits s t := by
  have ha := run_accounted (selectOperation_disciplined hop) h
  rcases Nat.lt_or_ge s.created cfg.NTHREADS with hc | hc
  · exact Or.inl ⟨_, _, Step.create ⟨s.created, hc⟩ rfl⟩
  by_cases hwait : Waits s t
  · exact Or.inr (Or.inr hwait)
  have howns : ∀ rest, (s.threads t).ctl = .run (.unlock :: rest) →
      (s.counters (s.threads t).cpuId).mutex = .held t := by
    intro rest hctl
    have hmem : .unlock ∈ cfg.operation.code := ((ha.threads t).suffix _ hctl).subset (by simp)
    have hlock := eq_lock_of_mem hop (Or.inr hmem)
    exact (run_lock hlock h).2.1.holds hlock (ha.threads t) hctl
  obtain ⟨a, th, m, hs⟩ := thread_enabled t (ha.born hc t) hret hwait howns
  exact Or.inr (Or.inl ⟨a, _, .thread hs⟩)

theorem run_holder_enabled {cfg : Config} {MODE : String}
    (hop : selectOperation MODE = some cfg.operation) {mem : ℕ → BitVec 64}
    {evs : List (Event cfg.NTHREADS)} {s : State cfg.NTHREADS} (h : Run cfg mem evs s)
    (t : Fin cfg.NTHREADS) (hwait : Waits s t) (hcpu : (s.threads t).cpuId < cfg.host.CPUS) :
    ∃ u, (s.counters (s.threads t).cpuId).mutex = .held u ∧
      ∃ a s', Step cfg s (.thread u a) s' := by
  have ha := run_accounted (selectOperation_disciplined hop) h
  have hmem : .lock ∈ cfg.operation.code := by
    obtain ⟨rest, hctl, -⟩ := hwait
    exact ((ha.threads t).suffix _ hctl).subset (by simp)
  have hlock := eq_lock_of_mem hop (Or.inl hmem)
  obtain ⟨u, hheld, a, th, m, hs⟩ :=
    (run_lock hlock h).2.1.holder_enabled hlock ha.threads hwait hcpu
  exact ⟨u, hheld, a, _, .thread hs⟩

section

variable {cfg : Config} {evs : List (Event cfg.NTHREADS)} {s s' : State cfg.NTHREADS}
  {e : Event cfg.NTHREADS}

/-- The events of a run by who takes them. -/
structure Tallied (cfg : Config) (evs : List (Event cfg.NTHREADS))
    (s : State cfg.NTHREADS) : Prop where
  length : evs.length = s.created + s.joined + ∑ t, steps t evs
  joined : s.joined ≤ cfg.NTHREADS

theorem sum_steps_snoc (evs : List (Event cfg.NTHREADS)) (e : Event cfg.NTHREADS) :
    ∑ t, steps t (evs ++ [e]) = ∑ t, steps t evs + e.actor.isSome.toNat := by
  simp only [steps_snoc, Finset.sum_add_distrib]
  cases h : e.actor with
  | none => simp
  | some u => simp

theorem tallied_step (h : Step cfg s e s') (ht : Tallied cfg evs s) :
    Tallied cfg (evs ++ [e]) s' := by
  obtain ⟨hlen, hjoined⟩ := ht
  have hsum := sum_steps_snoc evs e
  cases h with
  | create t ht =>
    refine ⟨?_, hjoined⟩
    simp only [List.length_append, List.length_singleton, hsum, Event.actor, Option.isSome_none,
      Bool.toNat_false]
    omega
  | thread hs =>
    refine ⟨?_, hjoined⟩
    simp only [List.length_append, List.length_singleton, hsum, Event.actor, Option.isSome_some,
      Bool.toNat_true]
    omega
  | join t hc hj hr =>
    have hlt := t.isLt
    refine ⟨?_, by simp only; omega⟩
    simp only [List.length_append, List.length_singleton, hsum, Event.actor, Option.isSome_none,
      Bool.toNat_false]
    omega

theorem run_tallied {mem : ℕ → BitVec 64} (h : Run cfg mem evs s) : Tallied cfg evs s :=
  h.invariant (P := Tallied cfg) ⟨by simp [start, steps], Nat.zero_le _⟩
    fun _ _ _ _ ht hs => tallied_step hs ht

/-- The most events that a run can have. -/
def Config.events (cfg : Config) : ℕ :=
  cfg.NTHREADS * (cfg.rounds.toNat * (cfg.operation.code.length + 2) + 4)

theorem run_length_le (hd : Disciplined cfg.operation.code) {mem : ℕ → BitVec 64}
    (h : Run cfg mem evs s) : evs.length ≤ cfg.events := by
  obtain ⟨ha, hc⟩ := run_counted hd h
  have ht := run_tallied h
  have hsteps : ∑ t, steps t evs ≤
      cfg.NTHREADS * (cfg.rounds.toNat * (cfg.operation.code.length + 2) + 2) := by
    calc ∑ t, steps t evs
        ≤ ∑ _t : Fin cfg.NTHREADS,
            (cfg.rounds.toNat * (cfg.operation.code.length + 2) + 2) :=
          Finset.sum_le_sum fun t _ => (hc.steps t).le.trans (stepsDone_le (ha.threads t))
      _ = _ := by simp
  have hcreated := ha.created
  have hjoined := ht.joined
  rw [ht.length, Config.events]
  simp only [Nat.mul_add] at hsteps ⊢
  omega

/-- No thread gets to lock a mutex behind the array. -/
def LocksInside (cfg : Config) : Prop :=
  .lock ∈ cfg.operation.code → cfg.host.Contiguous ∨ cfg.NTHREADS = 0 ∨ cfg.rounds = 0

theorem waits_inside (hd : Disciplined cfg.operation.code) (hlocks : LocksInside cfg)
    {mem : ℕ → BitVec 64} (h : Run cfg mem evs s) {t : Fin cfg.NTHREADS} (hwait : Waits s t) :
    (s.threads t).cpuId < cfg.host.CPUS := by
  obtain ⟨rest, hctl, -⟩ := hwait
  have hok := (run_accounted hd h).threads t
  rcases hlocks ((hok.suffix _ hctl).subset (by simp)) with hhost | hN | hrounds
  · exact hhost.lt (hok.online hd hctl (by simp))
  · exact absurd t.isLt (by omega)
  · have hlt := hok.running _ hctl
    rw [hrounds] at hlt
    exact absurd hlt (Nat.not_lt_zero _)

/-- Until the last join something can happen: a thread is created, steps or is
joined, or the holder of a mutex that it waits for steps. -/
theorem run_progress {MODE : String} (hop : selectOperation MODE = some cfg.operation)
    (hlocks : LocksInside cfg) {mem : ℕ → BitVec 64} (h : Run cfg mem evs s)
    (hend : s.joined ≠ cfg.NTHREADS) : ∃ e s', Step cfg s e s' := by
  have hd := selectOperation_disciplined hop
  have ha := run_accounted hd h
  by_cases hret : ∀ t, (s.threads t).ctl = .returned
  · have hlt : s.joined < cfg.NTHREADS := lt_of_le_of_ne (run_tallied h).joined hend
    have hall : s.created = cfg.NTHREADS := by
      by_contra hne
      have hu := (ha.unborn ⟨s.created, lt_of_le_of_ne ha.created hne⟩).2 le_rfl
      rw [hret] at hu
      exact Ctl.noConfusion hu
    exact ⟨_, _, .join ⟨s.joined, hlt⟩ hall rfl (hret _)⟩
  · push Not at hret
    obtain ⟨t, ht⟩ := hret
    rcases run_enabled hop h t ht with ⟨u, s', hs⟩ | ⟨a, s', hs⟩ | hwait
    · exact ⟨_, _, hs⟩
    · exact ⟨_, _, hs⟩
    · obtain ⟨u, -, a, s', hs⟩ :=
        run_holder_enabled hop h t hwait (waits_inside hd hlocks h hwait)
      exact ⟨_, _, hs⟩

/-- Thread `t` is at its lock of a mutex that was never initialised. -/
def Stuck {N : ℕ} (s : State N) (t : Fin N) : Prop :=
  ∃ rest, (s.threads t).ctl = .run (.lock :: rest) ∧
    (s.counters (s.threads t).cpuId).mutex = .raw

/-- Neither locking nor unlocking is possible there. -/
theorem raw_step {t : Fin cfg.NTHREADS} {th th' : Thread} {m m' : Counters cfg.NTHREADS}
    {a : Act} (h : ThreadStep cfg t th m a th' m') {c : ℕ} (hraw : (m c).mutex = .raw) :
    (m' c).mutex = .raw := by
  cases h with
  | lock h1 h2 | unlock h1 h2 =>
    have hne : c ≠ th.cpuId := by
      rintro rfl
      simp [hraw] at h2
    simpa [hne] using hraw
  | store h1 =>
    rcases eq_or_ne c th.cpuId with rfl | hne
    · simpa using hraw
    · simpa [hne] using hraw
  | _ => exact hraw

theorem stuck_step {t : Fin cfg.NTHREADS} (h : Step cfg s e s') (ha : Accounted cfg evs s)
    (hs : Stuck s t) : Stuck s' t := by
  obtain ⟨rest, hctl, hraw⟩ := hs
  cases h with
  | create u hu =>
    have hne : t ≠ u := by
      rintro rfl
      rw [(ha.unborn t).2 hu.le] at hctl
      exact Ctl.noConfusion hctl
    exact ⟨rest, by simpa [hne] using hctl, by simpa [hne] using hraw⟩
  | @thread u a th m hs =>
    -- the thread itself has no step
    have hne : t ≠ u := by
      rintro rfl
      cases hs <;> simp_all
    exact ⟨rest, by simpa [hne] using hctl, by simpa [hne] using raw_step hs hraw⟩
  | join u hc hj hr => exact ⟨rest, hctl, hraw⟩

/-- It waits for ever. -/
theorem Stuck.leads {t : Fin cfg.NTHREADS} (hd : Disciplined cfg.operation.code)
    {mem : ℕ → BitVec 64} (h : Run cfg mem evs s) (hs : Stuck s t)
    (hl : Leads (Step cfg) s s') : Stuck s' t := by
  obtain ⟨evs', hrun⟩ := hl
  induction hrun with
  | nil => exact hs
  | snoc hrun hstep ih => exact stuck_step hstep (run_accounted hd (h.trans hrun)) ih

end

/-- On a host without gaps every run ends after a bounded number of events, and
it ends with the last join: nothing else keeps it from going on. -/
theorem benchmark_ends (MODE : String) (cfg : Config) (mem : ℕ → BitVec 64)
    (hop : selectOperation MODE = some cfg.operation) (hhost : cfg.host.Contiguous)
    (evs : List (Event cfg.NTHREADS)) (s : State cfg.NTHREADS) (h : Run cfg mem evs s) :
    evs.length ≤ cfg.events ∧ (s.joined ≠ cfg.NTHREADS → ∃ e s', Step cfg s e s') ∧
      ∃ s', Leads (Step cfg) s s' ∧ s'.joined = cfg.NTHREADS := by
  have hbound : ∀ evs s, Run cfg mem evs s → evs.length ≤ cfg.events :=
    fun _ _ h => run_length_le (selectOperation_disciplined hop) h
  have hgo : ∀ evs s, Run cfg mem evs s → s.joined ≠ cfg.NTHREADS → ∃ e s', Step cfg s e s' :=
    fun _ _ h => run_progress hop (fun _ => Or.inl hhost) h
  exact ⟨hbound evs s h, hgo evs s h, Run.exists_goal hbound hgo h⟩

/-- `./rseq 2 lock` on two processors, before anything has happened. -/
theorem benchmark_ends_two :
    let cfg : Config := ⟨2, 50000000, operationLock, ⟨Finset.range 2, by decide⟩⟩
    ∃ s', Leads (Step cfg) (start cfg fun _ => 0) s' ∧ s'.joined = 2 := by
  intro cfg
  exact (benchmark_ends "lock" cfg (fun _ => 0) rfl (by simp [cfg, Host.Contiguous, Host.CPUS])
    [] _ .nil).2.2

end SyscallAdvent.Rseq
