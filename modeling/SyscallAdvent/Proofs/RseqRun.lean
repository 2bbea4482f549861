import Mathlib.Algebra.BigOperators.Fin
import Mathlib.Algebra.BigOperators.Group.Finset.Piecewise
import Mathlib.Data.BitVec
import Mathlib.Tactic
import SyscallAdvent.Spec.Rseq

/-! What every run of the benchmark keeps, whatever the operation: each thread
is inside its loop bounds and executes a suffix of the operation, and the
stores in the trace are exactly those that the threads' positions account for.
A run in which no two threads are between a load and its store of one entry
loses none of them. -/

namespace SyscallAdvent.Rseq

open Transition

theorem Host.Contiguous.lt {host : Host} (h : host.Contiguous) {c : ℕ} (hc : c ∈ host.online) :
    c < host.CPUS := by
  rw [h] at hc
  exact Finset.mem_range.1 hc

theorem Host.Contiguous.hasEntry {host : Host} (h : host.Contiguous) : host.HasEntry := by
  obtain ⟨c, hc⟩ := host.nonempty
  exact ⟨c, hc, h.lt hc⟩

theorem Config.rounds_toInt (cfg : Config) : cfg.rounds.toInt = cfg.ROUNDS_PER_THREAD.toInt :=
  BitVec.toInt_signExtend_of_le (by decide)

/-- A non-negative `int` is compared as the same number after its conversion to `uint64_t`. -/
theorem Config.rounds_of_nonneg (cfg : Config) (h : 0 ≤ cfg.ROUNDS_PER_THREAD.toInt) :
    cfg.rounds.toNat = cfg.ROUNDS_PER_THREAD.toInt.toNat := by
  have hmsb : cfg.rounds.msb = false := by
    rw [BitVec.msb_eq_toInt, cfg.rounds_toInt]
    simpa using h
  rw [← cfg.rounds_toInt, BitVec.toNat_toInt_of_msb _ hmsb]

/-- The entry whose counter a step overwrites. -/
def Act.written : Act → Option ℕ
  | .store c => some c
  | _ => none

def Event.written {N : ℕ} : Event N → Option ℕ
  | .thread _ a => a.written
  | _ => none

/-- The number of writes done to the counter of entry `c`. -/
def writes {N : ℕ} (c : ℕ) (evs : List (Event N)) : ℕ := (evs.filterMap Event.written).count c

@[simp] theorem writes_nil {N : ℕ} (c : ℕ) : writes c ([] : List (Event N)) = 0 := rfl

theorem writes_snoc {N : ℕ} (c : ℕ) (evs : List (Event N)) (e : Event N) :
    writes c (evs ++ [e]) = writes c evs + if e.written = some c then 1 else 0 :=
  count_filterMap_snoc Event.written c evs e

/-- Bounds and shape of one thread's position. -/
structure ThreadOk (cfg : Config) (th : Thread) : Prop where
  bound : th.i.toNat ≤ cfg.rounds.toNat
  running : ∀ rest, th.ctl = .run rest → th.i.toNat < cfg.rounds.toNat
  finished : th.ctl = .returned → th.i.toNat = cfg.rounds.toNat
  suffix : ∀ rest, th.ctl = .run rest → rest <:+ cfg.operation.code
  cpu : ∀ rest, th.ctl = .run rest → .getcpu ∈ cfg.operation.code → .getcpu ∉ rest →
    th.cpuId ∈ cfg.host.online

theorem threadOk_init (cfg : Config) : ThreadOk cfg Thread.init := by
  constructor <;> simp [Thread.init]

theorem toNat_succ_of_lt {i n : BitVec 64} (h : i.toNat < n.toNat) :
    (i + 1).toNat = i.toNat + 1 := by
  have hn := n.isLt
  rw [BitVec.toNat_add, show (1 : BitVec 64).toNat = 1 from rfl, Nat.mod_eq_of_lt (by omega)]

/-- An instruction other than `getcpu` is done. -/
theorem ThreadOk.advance {cfg : Config} {th th' : Thread} (hok : ThreadOk cfg th) {i : Instr}
    {rest : List Instr} (h : th.ctl = .run (i :: rest)) (hi : i ≠ .getcpu)
    (hctl : th'.ctl = .run rest) (hround : th'.i = th.i) (hcpu : th'.cpuId = th.cpuId) :
    ThreadOk cfg th' := by
  have hrest : ∀ rest', th'.ctl = .run rest' → rest' = rest := by
    intro rest' h'
    rw [hctl] at h'
    exact (Ctl.run.inj h').symm
  refine ⟨hround ▸ hok.bound, fun _ _ => hround ▸ hok.running _ h, ?_, ?_, ?_⟩
  · intro hret
    rw [hctl] at hret
    exact Ctl.noConfusion hret
  · intro rest' h'
    rw [hrest rest' h']
    exact (List.suffix_cons i rest).trans (hok.suffix _ h)
  · intro rest' h' hin hout
    rw [hrest rest' h'] at hout
    rw [hcpu]
    exact hok.cpu _ h hin (List.not_mem_cons_of_ne_of_not_mem hi.symm hout)

theorem threadStep_ok {cfg : Config} {t : Fin cfg.NTHREADS} {th th' : Thread}
    {m m' : Counters cfg.NTHREADS} {a : Act} (h : ThreadStep cfg t th m a th' m')
    (hok : ThreadOk cfg th) : ThreadOk cfg th' := by
  cases h with
  | print h1 => exact ⟨hok.bound, by simp, by simp, by simp, by simp⟩
  | call h1 h2 =>
    refine ⟨hok.bound, fun _ _ => h2, by simp, ?_, ?_⟩
    · intro rest h
      obtain rfl := Ctl.run.inj h
      exact List.suffix_refl _
    · intro rest h hin hout
      obtain rfl := Ctl.run.inj h
      exact absurd hin hout
  | leave h1 h2 =>
    refine ⟨hok.bound, by simp, fun _ => ?_, by simp, by simp⟩
    have h3 : ¬ th.i.toNat < cfg.rounds.toNat := h2
    exact le_antisymm hok.bound (Nat.le_of_not_lt h3)
  | ret h1 =>
    have hlt := hok.running _ h1
    have hsucc := toNat_succ_of_lt hlt
    exact ⟨by simp only [hsucc]; omega, by simp, by simp, by simp, by simp⟩
  | getcpu c h1 h2 =>
    refine ⟨hok.bound, fun _ _ => hok.running _ h1, by simp, ?_, fun _ _ _ _ => h2⟩
    intro rest h
    obtain rfl := Ctl.run.inj h
    exact (List.suffix_cons _ _).trans (hok.suffix _ h1)
  | lock h1 h2 => exact hok.advance h1 (by decide) rfl rfl rfl
  | load h1 => exact hok.advance h1 (by decide) rfl rfl rfl
  | store h1 => exact hok.advance h1 (by decide) rfl rfl rfl
  | unlock h1 h2 => exact hok.advance h1 (by decide) rfl rfl rfl

/-- The stores a thread has done, read off its position. -/
def executed (code : List Instr) (th : Thread) : ℕ :=
  th.i.toNat * code.count .store +
    match th.ctl with
    | .run rest => code.count .store - rest.count .store
    | _ => 0

theorem executed_step {cfg : Config} {t : Fin cfg.NTHREADS} {th th' : Thread}
    {m m' : Counters cfg.NTHREADS} {a : Act} (h : ThreadStep cfg t th m a th' m')
    (hok : ThreadOk cfg th) :
    executed cfg.operation.code th' =
      executed cfg.operation.code th + a.written.isSome.toNat := by
  cases h with
  | print h1 => simp [executed, h1, Act.written]
  | call h1 h2 => simp [executed, h1, Act.written]
  | leave h1 h2 => simp [executed, h1, Act.written]
  | ret h1 =>
    have hsucc := toNat_succ_of_lt (hok.running _ h1)
    simp only [executed, h1, Act.written, hsucc, List.count_nil, Option.isSome_none]
    simp [Nat.add_mul]
  | getcpu c h1 h2 => simp [executed, h1, Act.written]
  | lock h1 h2 => simp [executed, h1, Act.written]
  | load h1 => simp [executed, h1, Act.written]
  | store h1 =>
    -- the dropped step is the store, so the suffix had one more of them
    have hle := (hok.suffix _ h1).sublist.count_le Instr.store
    rw [List.count_cons_self] at hle
    simp only [executed, h1, Act.written, List.count_cons_self, Option.isSome_some, Bool.toNat_true]
    omega
  | unlock h1 h2 => simp [executed, h1, Act.written]

/-- Only a store changes a counter, and it writes the value read before plus one. -/
theorem counter_step {cfg : Config} {t : Fin cfg.NTHREADS} {th th' : Thread}
    {m m' : Counters cfg.NTHREADS} {a : Act} (h : ThreadStep cfg t th m a th' m') (c : ℕ) :
    (m' c).counter = if a.written = some c then th.tmp + 1 else (m c).counter := by
  cases h with
  | lock h1 h2 => by_cases hc : c = th.cpuId <;> simp [Act.written, hc]
  | unlock h1 h2 => by_cases hc : c = th.cpuId <;> simp [Act.written, hc]
  | store h1 => by_cases hc : c = th.cpuId <;> simp [Act.written, hc, eq_comm]
  | _ => simp [Act.written]

/-- A store goes to the entry whose index `getcpu` returned. -/
theorem written_step {cfg : Config} {t : Fin cfg.NTHREADS} {th th' : Thread}
    {m m' : Counters cfg.NTHREADS} {a : Act} (h : ThreadStep cfg t th m a th' m') {c : ℕ}
    (hw : a.written = some c) :
    c = th.cpuId ∧ ∃ rest, th.ctl = .run (.store :: rest) := by
  cases h with
  | store h1 =>
    simp only [Act.written, Option.some.injEq] at hw
    exact ⟨hw.symm, _, h1⟩
  | _ => simp [Act.written] at hw

/-- The order of steps in an operation: every step but `getcpu` works on the
entry fetched before, and the only store comes after the load. -/
def Disciplined (code : List Instr) : Prop :=
  (.store ∈ code → .load ∈ code) ∧
  ∀ l ∈ code.tails, ∀ i ∈ l.head?,
    (i ≠ .getcpu → .getcpu ∈ code ∧ .getcpu ∉ l) ∧
    (i = .getcpu → .store ∈ l → .load ∈ l) ∧
    (i = .store → l.count .store = 1 ∧ .load ∉ l)

instance (code : List Instr) : Decidable (Disciplined code) := by
  unfold Disciplined; infer_instance

/-- `selectOperation` knows one operation without steps under three names. -/
theorem selectOperation_cases {MODE : String} {op : Operation}
    (h : selectOperation MODE = some op) :
    (MODE = "regular" ∧ op = operationRegular) ∨ (MODE = "lock" ∧ op = operationLock) ∨
      (MODE ≠ "regular" ∧ MODE ≠ "lock" ∧ op = ⟨[], 0⟩) := by
  unfold selectOperation at h
  split_ifs at h <;> cases h <;> subst_vars <;> decide

theorem selectOperation_disciplined {MODE : String} {op : Operation}
    (h : selectOperation MODE = some op) : Disciplined op.code := by
  rcases selectOperation_cases h with ⟨-, rfl⟩ | ⟨-, rfl⟩ | ⟨-, -, rfl⟩ <;> decide

theorem Disciplined.head {code rest : List Instr} {i : Instr} (hd : Disciplined code)
    (h : i :: rest <:+ code) :
    (i ≠ .getcpu → .getcpu ∈ code ∧ .getcpu ∉ i :: rest) ∧
    (i = .getcpu → .store ∈ i :: rest → .load ∈ i :: rest) ∧
    (i = .store → (i :: rest).count .store = 1 ∧ .load ∉ i :: rest) :=
  hd.2 _ ((List.mem_tails _ _).2 h) i (by simp)

/-- A thread that is about to work on an entry fetched its index from `getcpu`. -/
theorem ThreadOk.online {cfg : Config} (hd : Disciplined cfg.operation.code) {th : Thread}
    (hok : ThreadOk cfg th) {i : Instr} {rest : List Instr} (hctl : th.ctl = .run (i :: rest))
    (hi : i ≠ .getcpu) : th.cpuId ∈ cfg.host.online := by
  obtain ⟨hget, hnot⟩ := (hd.head (hok.suffix _ hctl)).1 hi
  exact hok.cpu _ hctl hget hnot

/-- Between the load and the store of an update. -/
def Thread.Pending (th : Thread) : Prop :=
  ∃ rest, th.ctl = .run rest ∧ .store ∈ rest ∧ .load ∉ rest

/-- A pending thread was pending before its step, with the same entry and value
and without having stored, or it has just read the counter. -/
theorem pending_step {cfg : Config} {t : Fin cfg.NTHREADS} {th th' : Thread}
    {m m' : Counters cfg.NTHREADS} {a : Act} (h : ThreadStep cfg t th m a th' m')
    (hd : Disciplined cfg.operation.code) (hok : ThreadOk cfg th) (hp : th'.Pending) :
    a.written = none ∧ th'.cpuId = th.cpuId ∧
      (th.Pending ∧ th'.tmp = th.tmp ∨ th'.tmp = (m th.cpuId).counter) := by
  obtain ⟨rest', hctl, hst, hld⟩ := hp
  cases h with
  | print h1 => simp at hctl
  | call h1 h2 => cases hctl; exact absurd (hd.1 hst) hld
  | leave h1 h2 => simp at hctl
  | ret h1 => simp at hctl
  | getcpu c h1 h2 =>
    cases hctl
    have := (hd.head (hok.suffix _ h1)).2.1 rfl (by simp [hst])
    simp [hld] at this
  | lock h1 h2 => cases hctl; exact ⟨rfl, rfl, Or.inl ⟨⟨_, h1, by simp [hst], by simp [hld]⟩, rfl⟩⟩
  | load h1 => exact ⟨rfl, rfl, Or.inr rfl⟩
  | store h1 =>
    cases hctl
    have := ((hd.head (hok.suffix _ h1)).2.2 rfl).1
    rw [List.count_cons_self, Nat.add_eq_right, List.count_eq_zero] at this
    exact absurd hst this
  | unlock h1 h2 =>
    cases hctl; exact ⟨rfl, rfl, Or.inl ⟨⟨_, h1, by simp [hst], by simp [hld]⟩, rfl⟩⟩

theorem pending_of_store {cfg : Config} {th : Thread} {rest : List Instr}
    (hd : Disciplined cfg.operation.code) (hok : ThreadOk cfg th)
    (h : th.ctl = .run (.store :: rest)) : th.Pending :=
  ⟨_, h, by simp, ((hd.head (hok.suffix _ h)).2.2 rfl).2⟩

/-- What the trace and the threads' positions say about each other. -/
structure Accounted (cfg : Config) (evs : List (Event cfg.NTHREADS))
    (s : State cfg.NTHREADS) : Prop where
  threads : ∀ t, ThreadOk cfg (s.threads t)
  unborn : ∀ t, (s.threads t).ctl = .unborn ↔ s.created ≤ t.val
  created : s.created ≤ cfg.NTHREADS
  joined : ∀ t, t.val < s.joined → (s.threads t).ctl = .returned
  outside : ∀ c, c ∉ cfg.host.online → writes c evs = 0
  total : ∑ c ∈ cfg.host.online, writes c evs =
    ∑ t, executed cfg.operation.code (s.threads t)

theorem Accounted.born {cfg : Config} {evs : List (Event cfg.NTHREADS)}
    {s : State cfg.NTHREADS} (ha : Accounted cfg evs s) (hc : cfg.NTHREADS ≤ s.created)
    (t : Fin cfg.NTHREADS) : (s.threads t).ctl ≠ .unborn := by
  have := t.isLt
  exact (ha.unborn t).not.2 (by omega)

/-- Only a created thread that has not returned steps. -/
theorem active_step {cfg : Config} {t : Fin cfg.NTHREADS} {th th' : Thread}
    {m m' : Counters cfg.NTHREADS} {a : Act} (h : ThreadStep cfg t th m a th' m') :
    th.ctl ≠ .unborn ∧ th.ctl ≠ .returned ∧ th'.ctl ≠ .unborn := by
  cases h with
  | print h1 | call h1 | leave h1 | ret h1 | getcpu _ h1 | lock h1 | load h1 | store h1
  | unlock h1 => simp [h1]

theorem sum_writes_snoc {cfg : Config} (evs : List (Event cfg.NTHREADS))
    (e : Event cfg.NTHREADS) (h : ∀ c, e.written = some c → c ∈ cfg.host.online) :
    ∑ c ∈ cfg.host.online, writes c (evs ++ [e]) =
      ∑ c ∈ cfg.host.online, writes c evs + e.written.isSome.toNat := by
  simp only [writes_snoc, Finset.sum_add_distrib]
  cases hw : e.written with
  | none => simp
  | some d => simp [h d hw]

theorem sum_update {N : ℕ} (f : Thread → ℕ) (ths : Fin N → Thread) (t : Fin N) (th : Thread) :
    ∑ u, f (Function.update ths t th u) + f (ths t) = ∑ u, f (ths u) + f th := by
  have hrest : ∑ u ∈ Finset.univ.erase t, f (Function.update ths t th u) =
      ∑ u ∈ Finset.univ.erase t, f (ths u) :=
    Finset.sum_congr rfl fun u hu => by rw [Function.update_of_ne (Finset.ne_of_mem_erase hu)]
  have hnew := Finset.add_sum_erase Finset.univ (fun u => f (Function.update ths t th u))
    (Finset.mem_univ t)
  have hold := Finset.add_sum_erase Finset.univ (fun u => f (ths u)) (Finset.mem_univ t)
  simp only [Function.update_self] at hnew
  omega

theorem accounted_start (cfg : Config) (mem : ℕ → BitVec 64) :
    Accounted cfg [] (start cfg mem) := by
  refine ⟨fun _ => threadOk_init cfg, fun t => ?_, Nat.zero_le _, ?_, fun _ _ => rfl, ?_⟩
  · simp [start, Thread.init]
  · simp [start]
  · simp [start, Thread.init, executed]

section Accounting

variable {cfg : Config} {evs : List (Event cfg.NTHREADS)} {s : State cfg.NTHREADS}

theorem accounted_create (ha : Accounted cfg evs s) (t : Fin cfg.NTHREADS)
    (ht : s.created = t.val) :
    Accounted cfg (evs ++ [.create t])
      { s with created := s.created + 1,
               threads := Function.update s.threads t { s.threads t with ctl := .entry } } := by
  obtain ⟨hok, hub, hcr, hjo, hout, htot⟩ := ha
  have hctl : (s.threads t).ctl = .unborn := (hub t).2 ht.le
  have hth : ThreadOk cfg { s.threads t with ctl := .entry } :=
    ⟨(hok t).bound, by simp, by simp, by simp, by simp⟩
  refine ⟨?_, fun u => ?_, ?_, fun u hu => ?_, fun c hc => ?_, ?_⟩
  · exact (Function.forall_update_iff _ fun _ => ThreadOk cfg).2 ⟨hth, fun u _ => hok u⟩
  · rcases eq_or_ne u t with rfl | hne
    · simp [ht]
    · have := Fin.val_ne_of_ne hne
      simp only [Function.update_of_ne hne, hub u]
      omega
  · have := t.isLt
    simp only
    omega
  · have hne : u ≠ t := by
      rintro rfl
      simp [hjo u hu] at hctl
    simpa [hne] using hjo u hu
  · simpa [writes_snoc, Event.written] using hout c hc
  · have hsum := sum_update (executed cfg.operation.code) s.threads t
      { s.threads t with ctl := .entry }
    have hsame : executed cfg.operation.code { s.threads t with ctl := .entry } =
        executed cfg.operation.code (s.threads t) := by simp [executed, hctl]
    rw [sum_writes_snoc evs _ (by simp [Event.written]), htot]
    simp only [Event.written, Option.isSome_none, Bool.toNat_false] at hsum hsame ⊢
    omega

theorem accounted_thread (hd : Disciplined cfg.operation.code) (ha : Accounted cfg evs s)
    {t : Fin cfg.NTHREADS} {a : Act} {th : Thread} {m : Counters cfg.NTHREADS}
    (hs : ThreadStep cfg t (s.threads t) s.counters a th m) :
    Accounted cfg (evs ++ [.thread t a])
      { s with threads := Function.update s.threads t th, counters := m } := by
  obtain ⟨hok, hub, hcr, hjo, hout, htot⟩ := ha
  obtain ⟨hborn, hret, hborn'⟩ := active_step hs
  have hin : ∀ c, a.written = some c → c ∈ cfg.host.online := by
    intro c hw
    obtain ⟨rfl, rest, hctl⟩ := written_step hs hw
    exact (hok t).online hd hctl (by simp)
  refine ⟨?_, fun u => ?_, hcr, fun u hu => ?_, fun c hc => ?_, ?_⟩
  · exact (Function.forall_update_iff _ fun _ => ThreadOk cfg).2
      ⟨threadStep_ok hs (hok t), fun u _ => hok u⟩
  · rcases eq_or_ne u t with rfl | hne
    · simpa [hborn'] using (hub u).not.1 hborn
    · simpa [hne] using hub u
  · have hne : u ≠ t := by
      rintro rfl
      exact hret (hjo u hu)
    simpa [hne] using hjo u hu
  · have hne : (Event.thread t a : Event cfg.NTHREADS).written ≠ some c :=
      fun hw => hc (hin c hw)
    simpa [writes_snoc, hne] using hout c hc
  · have hsum := sum_update (executed cfg.operation.code) s.threads t th
    have hstep := executed_step hs (hok t)
    rw [sum_writes_snoc evs (.thread t a) hin, htot]
    simp only [Event.written]
    omega

theorem accounted_join (ha : Accounted cfg evs s) (t : Fin cfg.NTHREADS)
    (hj : s.joined = t.val) (hret : (s.threads t).ctl = .returned) :
    Accounted cfg (evs ++ [.join t])
      { s with joined := s.joined + 1, aborts := s.aborts + (s.threads t).aborts } := by
  refine ⟨ha.threads, ha.unborn, ha.created, fun u hu => ?_, fun c hc => ?_, ?_⟩
  · rcases eq_or_ne u t with rfl | hne
    · exact hret
    · have := Fin.val_ne_of_ne hne
      simp only at hu
      exact ha.joined u (by omega)
  · simpa [writes_snoc, Event.written] using ha.outside c hc
  · rw [sum_writes_snoc evs _ (by simp [Event.written]), ha.total]
    rfl

theorem accounted_step (hd : Disciplined cfg.operation.code) {s' : State cfg.NTHREADS}
    {e : Event cfg.NTHREADS} (h : Step cfg s e s') (ha : Accounted cfg evs s) :
    Accounted cfg (evs ++ [e]) s' := by
  cases h with
  | create t ht => exact accounted_create ha t ht
  | thread hs => exact accounted_thread hd ha hs
  | join t _ hj hret => exact accounted_join ha t hj hret

end Accounting

/-- Every run accounts for its stores, for each of the selectable operations. -/
theorem run_accounted {cfg : Config} (hd : Disciplined cfg.operation.code)
    {mem : ℕ → BitVec 64} {evs : List (Event cfg.NTHREADS)} {s : State cfg.NTHREADS}
    (h : Run cfg mem evs s) : Accounted cfg evs s :=
  h.invariant (accounted_start cfg mem) fun _ _ _ _ ha hs => accounted_step hd hs ha

/-- At most one thread is inside an update of any one entry. -/
def Exclusive {N : ℕ} (s : State N) : Prop :=
  ∀ t t', (s.threads t).Pending → (s.threads t').Pending →
    (s.threads t).cpuId = (s.threads t').cpuId → t = t'

/-- No write was lost so far, and no pending thread holds a stale value. -/
structure Exact (mem : ℕ → BitVec 64) {N : ℕ} (evs : List (Event N)) (s : State N) : Prop where
  counter : ∀ c, (s.counters c).counter = mem c + BitVec.ofNat 64 (writes c evs)
  fresh : ∀ t, (s.threads t).Pending →
    (s.threads t).tmp = (s.counters (s.threads t).cpuId).counter

theorem exact_step {cfg : Config} (hd : Disciplined cfg.operation.code)
    {mem : ℕ → BitVec 64} {evs : List (Event cfg.NTHREADS)} {s s' : State cfg.NTHREADS}
    {e : Event cfg.NTHREADS} (h : Step cfg s e s') (ha : Accounted cfg evs s)
    (hx : Exclusive s) (he : Exact mem evs s) : Exact mem (evs ++ [e]) s' := by
  obtain ⟨hcnt, hfresh⟩ := he
  cases h with
  | create t ht =>
    refine ⟨fun c => by simpa [writes_snoc, Event.written] using hcnt c, fun u hu => ?_⟩
    rcases eq_or_ne u t with rfl | hne
    · obtain ⟨rest, hctl, -⟩ := hu
      simp at hctl
    · simp only [Function.update_of_ne hne] at hu ⊢
      exact hfresh u hu
  | @thread t a th m hs =>
    have hold : ∀ c, a.written = some c →
        (s.threads t).Pending ∧ c = (s.threads t).cpuId := by
      intro c hw
      obtain ⟨hc, rest, hctl⟩ := written_step hs hw
      exact ⟨pending_of_store hd (ha.threads t) hctl, hc⟩
    refine ⟨fun c => ?_, fun u hu => ?_⟩
    · rw [counter_step hs c, writes_snoc]
      by_cases hw : a.written = some c
      · obtain ⟨hp, rfl⟩ := hold c hw
        rw [if_pos hw, if_pos (show (Event.thread t a).written = _ from hw), hfresh t hp, hcnt,
          BitVec.ofNat_add, BitVec.add_assoc]
        rfl
      · rw [if_neg hw, if_neg (show ¬ (Event.thread t a).written = _ from hw), hcnt, Nat.add_zero]
    · rcases eq_or_ne u t with rfl | hne
      · simp only [Function.update_self] at hu ⊢
        obtain ⟨hw, hcpu, ⟨hp, htmp⟩ | htmp⟩ := pending_step hs hd (ha.threads u) hu
        · rw [counter_step hs, hw, hcpu, htmp]
          simpa using hfresh u hp
        · rw [counter_step hs, hw, hcpu, htmp]
          simp
      · simp only [Function.update_of_ne hne] at hu ⊢
        have hw : ¬ a.written = some (s.threads u).cpuId := by
          intro hw
          obtain ⟨hp, hc⟩ := hold _ hw
          exact hne (hx u t hu hp hc)
        rw [counter_step hs, if_neg hw]
        exact hfresh u hu
  | join t hc hj hr =>
    exact ⟨fun c => by simpa [writes_snoc, Event.written] using hcnt c, hfresh⟩

theorem initLocks_succ {N : ℕ} (n : ℕ) (m : Counters N) :
    initLocks (n + 1) m =
      Function.update (initLocks n m) n { initLocks n m n with mutex := .free } := by
  simp [initLocks, List.range_succ]

theorem initLocks_apply {N : ℕ} (n : ℕ) (m : Counters N) (c : ℕ) :
    initLocks n m c = if c < n then { m c with mutex := .free } else m c := by
  induction n with
  | zero => simp [initLocks]
  | succ n ih =>
    rw [initLocks_succ]
    rcases eq_or_ne c n with rfl | hne
    · rw [Function.update_self, ih, if_neg (lt_irrefl c), if_pos (by omega)]
    · rw [Function.update_of_ne hne, ih]
      by_cases h : c < n
      · rw [if_pos h, if_pos (by omega)]
      · rw [if_neg h, if_neg (by omega)]

theorem start_counter (cfg : Config) (mem : ℕ → BitVec 64) (c : ℕ) :
    ((start cfg mem).counters c).counter = mem c := by
  simp only [start, initLocks_apply]
  split_ifs <;> rfl

theorem counterSum_eq {N : ℕ} (n : ℕ) (m : Counters N) :
    counterSum n m = ∑ c ∈ Finset.range n, (m c).counter := by
  induction n with
  | zero => rfl
  | succ n ih =>
    rw [Finset.sum_range_succ, ← ih]
    simp [counterSum, List.range_succ]

theorem exact_start (cfg : Config) (mem : ℕ → BitVec 64) : Exact mem [] (start cfg mem) := by
  refine ⟨fun c => by simp [start_counter], fun t h => ?_⟩
  obtain ⟨rest, hctl, -⟩ := h
  simp [start, Thread.init] at hctl

/-- The number of increments that the threads of a finished run have made. -/
def Config.increments (cfg : Config) : ℕ :=
  cfg.NTHREADS * (cfg.rounds.toNat * cfg.operation.code.count .store)

/-- Once all threads have returned, a loss-free run has added every increment to the sum. -/
theorem Exact.counterSum {cfg : Config} {mem : ℕ → BitVec 64}
    {evs : List (Event cfg.NTHREADS)} {s : State cfg.NTHREADS} (he : Exact mem evs s)
    (ha : Accounted cfg evs s) (hhost : cfg.host.Contiguous)
    (hret : ∀ t, (s.threads t).ctl = .returned) :
    Rseq.counterSum cfg.host.CPUS s.counters =
      Rseq.counterSum cfg.host.CPUS (start cfg mem).counters +
        BitVec.ofNat 64 cfg.increments := by
  have hall : ∀ t, executed cfg.operation.code (s.threads t) =
      cfg.rounds.toNat * cfg.operation.code.count .store := fun t => by
    simp [executed, hret t, (ha.threads t).finished (hret t)]
  have htotal : ∑ c ∈ Finset.range cfg.host.CPUS, writes c evs = cfg.increments := by
    rw [← hhost, ha.total, Finset.sum_congr rfl fun t _ => hall t]
    simp [Config.increments]
  have hcast : ∀ n : ℕ, BitVec.ofNat 64 n = (n : BitVec 64) := fun _ => rfl
  rw [counterSum_eq, counterSum_eq, Finset.sum_congr rfl fun c _ => he.counter c,
    Finset.sum_add_distrib, Finset.sum_congr rfl fun c _ => start_counter cfg mem c, ← htotal]
  simp only [hcast, Nat.cast_sum]

end SyscallAdvent.Rseq
