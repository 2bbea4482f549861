import SyscallAdvent.Lib.Increment
import SyscallAdvent.Proofs.RseqVerdict

/-! What a run loses. The counters of the array are cells that the threads
increment by a load and a store, whatever else the operation does around them,
so the benchmark refines the unsynchronized counting of the library. The sum
grows by the number of stores exactly if each store found its counter as the
thread had read it. -/

namespace SyscallAdvent.Rseq

open Transition

/-- The accesses to the counters. -/
def Event.access {N : ℕ} : Event N → Option (Increment.Access (Fin N) ℕ)
  | .thread t (.load c) => some (.load t c)
  | .thread t (.store c) => some (.store t c)
  | _ => none

def accesses {N : ℕ} (evs : List (Event N)) : List (Increment.Access (Fin N) ℕ) :=
  evs.filterMap Event.access

theorem accesses_snoc {N : ℕ} (evs : List (Event N)) (e : Event N) :
    accesses (evs ++ [e]) = accesses evs ++ e.access.toList := by
  rw [accesses, List.filterMap_append]
  cases h : e.access <;> simp [accesses, h]

theorem stores_accesses {N : ℕ} (c : ℕ) (evs : List (Event N)) :
    Increment.stores c (accesses evs) = writes c evs := by
  have hwritten : ∀ e : Event N,
      e.access.bind (fun a => a.written.map Prod.snd) = e.written := by
    intro e
    cases e with
    | thread t a => cases a <;> rfl
    | _ => rfl
  rw [Increment.stores, accesses, List.filterMap_filterMap, writes, funext hwritten]

section

variable {cfg : Config} {mem : ℕ → BitVec 64} {evs : List (Event cfg.NTHREADS)}
  {s s' : State cfg.NTHREADS} {e : Event cfg.NTHREADS}

/-- The counters count from their initial contents, and a thread inside an update
has read such a count. -/
structure Abstracts (mem : ℕ → BitVec 64) {N : ℕ} (s : State N)
    (w : Increment.Cells (Fin N) ℕ) : Prop where
  counter : ∀ c, (s.counters c).counter = mem c + BitVec.ofNat 64 (w.count c)
  read : ∀ t, (s.threads t).Pending → ∃ v, w.pending t = some ((s.threads t).cpuId, v) ∧
    (s.threads t).tmp = mem (s.threads t).cpuId + BitVec.ofNat 64 v

theorem abstracts_start (cfg : Config) (mem : ℕ → BitVec 64) :
    Abstracts mem (start cfg mem) Increment.Cells.zero := by
  refine ⟨fun c => by simp [start_counter, Increment.Cells.zero], fun t h => ?_⟩
  obtain ⟨rest, hctl, -⟩ := h
  simp [start, Thread.init] at hctl

/-- A step other than a load does not lead into an update. -/
theorem pending_frame {t : Fin cfg.NTHREADS} {th th' : Thread} {m m' : Counters cfg.NTHREADS}
    {a : Act} (h : ThreadStep cfg t th m a th' m') (hd : Disciplined cfg.operation.code)
    (hok : ThreadOk cfg th) (hload : ∀ c, a ≠ .load c) (hp : th'.Pending) :
    th.Pending ∧ th'.cpuId = th.cpuId ∧ th'.tmp = th.tmp := by
  obtain ⟨hwritten, hcpu, -⟩ := pending_step h hd hok hp
  obtain ⟨rest', hctl, hst, hld⟩ := hp
  cases h with
  | print h1 => simp at hctl
  | call h1 h2 =>
    cases hctl
    exact absurd (hd.1 hst) hld
  | leave h1 h2 => simp at hctl
  | ret h1 => simp at hctl
  | getcpu c h1 h2 =>
    cases hctl
    have := (hd.head (hok.suffix _ h1)).2.1 rfl (by simp [hst])
    simp [hld] at this
  | load h1 => exact absurd rfl (hload _)
  | store h1 => simp [Act.written] at hwritten
  | lock h1 h2 | unlock h1 h2 =>
    cases hctl
    exact ⟨⟨_, h1, by simp [hst], by simp [hld]⟩, hcpu, rfl⟩

/-- A step that is no access to a counter. -/
theorem abstracts_thread {t : Fin cfg.NTHREADS} {th : Thread} {m : Counters cfg.NTHREADS}
    {a : Act} (h : ThreadStep cfg t (s.threads t) s.counters a th m)
    (hd : Disciplined cfg.operation.code) (hok : ThreadOk cfg (s.threads t))
    {w : Increment.Cells (Fin cfg.NTHREADS) ℕ} (hw : Abstracts mem s w)
    (hload : ∀ c, a ≠ .load c) (hstore : a.written = none) :
    Abstracts mem { s with threads := Function.update s.threads t th, counters := m } w := by
  refine ⟨fun c => ?_, fun u hu => ?_⟩
  · rw [counter_step h c, hstore]
    simpa using hw.counter c
  · rcases eq_or_ne u t with rfl | hne
    · simp only [Function.update_self] at hu ⊢
      obtain ⟨hp, hcpu, htmp⟩ := pending_frame h hd hok hload hu
      rw [hcpu, htmp]
      exact hw.read u hp
    · simp only [Function.update_of_ne hne] at hu ⊢
      exact hw.read u hu

theorem abstracts_load {t : Fin cfg.NTHREADS} {rest : List Instr}
    {w : Increment.Cells (Fin cfg.NTHREADS) ℕ} (hw : Abstracts mem s w) :
    Abstracts mem
      { s with threads := Function.update s.threads t
                 { s.threads t with ctl := .run rest,
                                    tmp := (s.counters (s.threads t).cpuId).counter } }
      { w with pending := Function.update w.pending t
                 (some ((s.threads t).cpuId, w.count (s.threads t).cpuId)) } := by
  refine ⟨hw.counter, fun u hu => ?_⟩
  rcases eq_or_ne u t with rfl | hne
  · simp only [Function.update_self]
    exact ⟨_, rfl, hw.counter _⟩
  · simp only [Function.update_of_ne hne] at hu ⊢
    exact hw.read u hu

theorem abstracts_store {t : Fin cfg.NTHREADS} {rest : List Instr} {v : ℕ}
    {w : Increment.Cells (Fin cfg.NTHREADS) ℕ} (hw : Abstracts mem s w)
    (hrest : .store ∉ rest)
    (hv : (s.threads t).tmp = mem (s.threads t).cpuId + BitVec.ofNat 64 v) :
    Abstracts mem
      { s with threads := Function.update s.threads t { s.threads t with ctl := .run rest },
               counters := Function.update s.counters (s.threads t).cpuId
                 { s.counters (s.threads t).cpuId with counter := (s.threads t).tmp + 1 } }
      { count := Function.update w.count (s.threads t).cpuId (v + 1)
        pending := Function.update w.pending t none } := by
  refine ⟨fun c => ?_, fun u hu => ?_⟩
  · rcases eq_or_ne c (s.threads t).cpuId with rfl | hne
    · simp only [Function.update_self, hv, BitVec.ofNat_add, BitVec.add_assoc]
      rfl
    · simpa only [Function.update_of_ne hne] using hw.counter c
  · rcases eq_or_ne u t with rfl | hne
    · obtain ⟨rest', hctl, hst, -⟩ := hu
      simp only [Function.update_self, Ctl.run.injEq] at hctl
      exact absurd hst (hctl ▸ hrest)
    · simp only [Function.update_of_ne hne] at hu ⊢
      exact hw.read u hu

/-- Each event of the process is an access in the library's sense, or none. -/
theorem abstracts_step (hd : Disciplined cfg.operation.code) (h : Step cfg s e s')
    (ha : Accounted cfg evs s) {w : Increment.Cells (Fin cfg.NTHREADS) ℕ}
    (hw : Abstracts mem s w) :
    ∃ w', Abstracts mem s' w' ∧
      (e.access = none ∧ w' = w ∨ ∃ a, e.access = some a ∧ Increment.Step w a w') := by
  cases h with
  | create t ht =>
    refine ⟨w, ⟨hw.counter, fun u hu => ?_⟩, Or.inl ⟨rfl, rfl⟩⟩
    rcases eq_or_ne u t with rfl | hne
    · obtain ⟨rest, hctl, -⟩ := hu
      simp at hctl
    · simp only [Function.update_of_ne hne] at hu ⊢
      exact hw.read u hu
  | @thread t a th m hs =>
    have hok := ha.threads t
    cases hs with
    | load h1 => exact ⟨_, abstracts_load hw, Or.inr ⟨_, rfl, .load t _⟩⟩
    | store h1 =>
      obtain ⟨v, hpending, hv⟩ := hw.read t (pending_of_store hd hok h1)
      have hone := ((hd.head (hok.suffix _ h1)).2.2 rfl).1
      rw [List.count_cons_self, Nat.add_eq_right, List.count_eq_zero] at hone
      exact ⟨_, abstracts_store hw hone hv, Or.inr ⟨_, rfl, .store hpending⟩⟩
    | print h1 =>
      exact ⟨w, abstracts_thread (.print h1) hd hok hw (by simp) rfl, Or.inl ⟨rfl, rfl⟩⟩
    | call h1 h2 =>
      exact ⟨w, abstracts_thread (.call h1 h2) hd hok hw (by simp) rfl, Or.inl ⟨rfl, rfl⟩⟩
    | leave h1 h2 =>
      exact ⟨w, abstracts_thread (.leave h1 h2) hd hok hw (by simp) rfl, Or.inl ⟨rfl, rfl⟩⟩
    | ret h1 => exact ⟨w, abstracts_thread (.ret h1) hd hok hw (by simp) rfl, Or.inl ⟨rfl, rfl⟩⟩
    | getcpu c h1 h2 =>
      exact ⟨w, abstracts_thread (.getcpu c h1 h2) hd hok hw (by simp) rfl, Or.inl ⟨rfl, rfl⟩⟩
    | lock h1 h2 =>
      exact ⟨w, abstracts_thread (.lock h1 h2) hd hok hw (by simp) rfl, Or.inl ⟨rfl, rfl⟩⟩
    | unlock h1 h2 =>
      exact ⟨w, abstracts_thread (.unlock h1 h2) hd hok hw (by simp) rfl, Or.inl ⟨rfl, rfl⟩⟩
  | join t hc hj hr => exact ⟨w, ⟨hw.counter, hw.read⟩, Or.inl ⟨rfl, rfl⟩⟩

/-- The benchmark refines unsynchronized counting. -/
theorem run_abstracts (hd : Disciplined cfg.operation.code) (h : Run cfg mem evs s) :
    Accounted cfg evs s ∧ ∃ w, Abstracts mem s w ∧
      Transition.Run Increment.Step Increment.Cells.zero (accesses evs) w := by
  refine h.invariant (P := fun evs s => Accounted cfg evs s ∧ ∃ w, Abstracts mem s w ∧
    Transition.Run Increment.Step Increment.Cells.zero (accesses evs) w)
    ⟨accounted_start cfg mem, _, abstracts_start cfg mem, .nil⟩ ?_
  rintro evs s e s' ⟨ha, w, hw, hrun⟩ hs
  refine ⟨accounted_step hd hs ha, ?_⟩
  obtain ⟨w', hw', ⟨hnone, rfl⟩ | ⟨a, hsome, hstep⟩⟩ := abstracts_step hd hs ha hw
  · refine ⟨w', hw', ?_⟩
    rw [accesses_snoc, hnone]
    simpa using hrun
  · refine ⟨w', hw', ?_⟩
    rw [accesses_snoc, hsome]
    exact hrun.snoc hstep

/-- A thread has stored as often as its position says. -/
theorem storesOf_step (h : Step cfg s e s') (ha : Accounted cfg evs s)
    (hs : ∀ t, Increment.storesOf t (accesses evs) =
      executed cfg.operation.code (s.threads t)) (t : Fin cfg.NTHREADS) :
    Increment.storesOf t (accesses (evs ++ [e])) =
      executed cfg.operation.code (s'.threads t) := by
  rw [accesses_snoc]
  cases h with
  | create u hu =>
    have hctl : (s.threads u).ctl = .unborn := (ha.unborn u).2 hu.le
    rcases eq_or_ne t u with rfl | hne
    · simp [Event.access, hs, executed, hctl]
    · simp [Event.access, hs, hne]
  | @thread u a th m hstep =>
    have hadd : Increment.storesOf t
        (accesses evs ++ (Event.access (.thread u a)).toList) =
        Increment.storesOf t (accesses evs) + if u = t then a.written.isSome.toNat else 0 := by
      cases a <;> simp [Event.access, Increment.storesOf_snoc, Increment.Access.written,
        Act.written]
    rw [hadd, hs]
    rcases eq_or_ne t u with rfl | hne
    · simp [executed_step hstep (ha.threads t)]
    · simp [hne, hne.symm]
  | join u hc hj hr => simp [Event.access, hs]

theorem run_storesOf (hd : Disciplined cfg.operation.code) (h : Run cfg mem evs s)
    (t : Fin cfg.NTHREADS) :
    Increment.storesOf t (accesses evs) = executed cfg.operation.code (s.threads t) := by
  refine (h.invariant (P := fun evs s => Accounted cfg evs s ∧ ∀ t,
    Increment.storesOf t (accesses evs) = executed cfg.operation.code (s.threads t))
    ⟨accounted_start cfg mem, fun t => ?_⟩ ?_).2 t
  · simp [accesses, Increment.storesOf, start, Thread.init, executed]
  · intro evs s e s' hinv hs
    exact ⟨accounted_step hd hs hinv.1, storesOf_step hs hinv.1 hinv.2⟩

/-- The sum over the array has grown by what the cells show. -/
theorem growth_eq (hhost : cfg.host.Contiguous) {w : Increment.Cells (Fin cfg.NTHREADS) ℕ}
    (hw : Abstracts mem s w) :
    growth cfg mem s = BitVec.ofNat 64 (∑ c ∈ cfg.host.online, w.count c) := by
  have hcast : ∀ n : ℕ, BitVec.ofNat 64 n = (n : BitVec 64) := fun _ => rfl
  rw [growth, counterSum_start, counterSum_eq, initialSum,
    Finset.sum_congr rfl fun c _ => hw.counter c, Finset.sum_add_distrib, add_sub_cancel_left,
    hhost]
  simp only [hcast, Nat.cast_sum, Host.CPUS]

/-- At most the increments of a complete run are stored. -/
theorem sum_writes_le (ha : Accounted cfg evs s) :
    ∑ c ∈ cfg.host.online, writes c evs ≤ cfg.increments := by
  have hone : ∀ t, executed cfg.operation.code (s.threads t) ≤
      cfg.rounds.toNat * cfg.operation.code.count .store := by
    intro t
    have hbound := Nat.mul_le_mul_right (cfg.operation.code.count .store) (ha.threads t).bound
    unfold executed
    rcases hctl : (s.threads t).ctl with _ | _ | _ | rest | _
    case run =>
      -- the round that is not over counts as at most one more
      have hlt := Nat.mul_le_mul_right (cfg.operation.code.count .store)
        (Nat.succ_le_of_lt ((ha.threads t).running _ hctl))
      rw [Nat.succ_mul] at hlt
      simp only
      omega
    all_goals simpa using hbound
  rw [ha.total]
  calc ∑ t, executed cfg.operation.code (s.threads t)
      ≤ ∑ _t : Fin cfg.NTHREADS, cfg.rounds.toNat * cfg.operation.code.count .store :=
        Finset.sum_le_sum fun t _ => hone t
    _ = cfg.increments := by simp [Config.increments]

/-- Once all threads have returned, these are all. -/
theorem sum_writes_of_returned (ha : Accounted cfg evs s)
    (hret : ∀ t, (s.threads t).ctl = .returned) :
    ∑ c ∈ cfg.host.online, writes c evs = cfg.increments := by
  have hall : ∀ t, executed cfg.operation.code (s.threads t) =
      cfg.rounds.toNat * cfg.operation.code.count .store := fun t => by
    simp [executed, hret t, (ha.threads t).finished (hret t)]
  rw [ha.total, Finset.sum_congr rfl fun t _ => hall t]
  simp [Config.increments]

/-- A store finds its counter as its thread has read it. -/
def Undisturbed {N : ℕ} (s : State N) : Event N → Prop
  | .thread t (.store c) => (s.counters c).counter = (s.threads t).tmp
  | _ => True

/-- The runs all of whose stores are undisturbed. -/
abbrev UndisturbedRun (cfg : Config) (mem : ℕ → BitVec 64) :=
  Transition.Run (fun s e s' => Step cfg s e s' ∧ Undisturbed s e) (start cfg mem)

theorem threadStep_deterministic {t : Fin cfg.NTHREADS} {th th₁ th₂ : Thread}
    {m m₁ m₂ : Counters cfg.NTHREADS} {a : Act} (h₁ : ThreadStep cfg t th m a th₁ m₁)
    (h₂ : ThreadStep cfg t th m a th₂ m₂) : th₁ = th₂ ∧ m₁ = m₂ := by
  cases h₁ <;> cases h₂ <;> simp_all

/-- An event and the state before it determine the state after it. -/
theorem step_deterministic (s : State cfg.NTHREADS) (e : Event cfg.NTHREADS)
    (s₁ s₂ : State cfg.NTHREADS) (h₁ : Step cfg s e s₁) (h₂ : Step cfg s e s₂) : s₁ = s₂ := by
  cases h₁ with
  | create t ht => cases h₂; rfl
  | thread hs =>
    cases h₂ with
    | thread hs' =>
      obtain ⟨rfl, rfl⟩ := threadStep_deterministic hs hs'
      rfl
  | join t hc hj hr => cases h₂; rfl

/-- As long as nothing can wrap around, the stores that the cells call fresh are
the undisturbed ones. -/
theorem fresh_iff {t : Fin cfg.NTHREADS} {c : ℕ} {w : Increment.Cells (Fin cfg.NTHREADS) ℕ}
    (hd : Disciplined cfg.operation.code) (h : Step cfg s (.thread t (.store c)) s')
    (ha : Accounted cfg evs s) (hw : Abstracts mem s w)
    (hsound : Increment.Sound (accesses evs) w) (hfit : cfg.increments < 2 ^ 64) :
    w.Fresh (.store t c) ↔ Undisturbed s (.thread t (.store c)) := by
  obtain ⟨rest, hctl, rfl⟩ : ∃ rest, (s.threads t).ctl = .run (.store :: rest) ∧
      c = (s.threads t).cpuId := by
    cases h with
    | thread hs =>
      obtain ⟨hc, rest, hctl⟩ := written_step hs rfl
      exact ⟨rest, hctl, hc⟩
  obtain ⟨v, hpending, htmp⟩ := hw.read t (pending_of_store hd (ha.threads t) hctl)
  have hc := (ha.threads t).online hd hctl (by simp)
  have hwrites := Finset.single_le_sum (f := fun c => writes c evs) (fun _ _ => Nat.zero_le _) hc
  have hle := sum_writes_le ha
  have hv := hsound.read_le t _ v hpending
  have hcount := hsound.count_le (s.threads t).cpuId
  rw [stores_accesses] at hv hcount
  simp only [Increment.Cells.Fresh, Undisturbed, hpending, hw.counter, htmp,
    Option.some.injEq, Prod.mk.injEq, true_and, add_right_inj]
  rw [← BitVec.toNat_inj, BitVec.toNat_ofNat, BitVec.toNat_ofNat, Nat.mod_eq_of_lt (by omega),
    Nat.mod_eq_of_lt (by omega)]
  exact eq_comm

theorem undisturbed_iff {a : Increment.Access (Fin cfg.NTHREADS) ℕ}
    {w : Increment.Cells (Fin cfg.NTHREADS) ℕ} (hd : Disciplined cfg.operation.code)
    (h : Step cfg s e s') (ha : Accounted cfg evs s) (hw : Abstracts mem s w)
    (hsound : Increment.Sound (accesses evs) w) (hfit : cfg.increments < 2 ^ 64)
    (he : e.access = some a) : w.Fresh a ↔ Undisturbed s e := by
  cases e with
  | create t => simp [Event.access] at he
  | join t => simp [Event.access] at he
  | thread t b =>
    cases b <;> simp only [Event.access, Option.some.injEq, reduceCtorEq] at he <;> subst he
    case load => exact Iff.rfl
    case store => exact fresh_iff hd h ha hw hsound hfit

/-- The cells have kept every store exactly if the run was undisturbed. -/
theorem run_faithful_iff (hd : Disciplined cfg.operation.code)
    (hfit : cfg.increments < 2 ^ 64) (h : Run cfg mem evs s) :
    Accounted cfg evs s ∧ ∃ w, Abstracts mem s w ∧ Increment.Sound (accesses evs) w ∧
      (Increment.Faithful (accesses evs) w ↔ UndisturbedRun cfg mem evs s) := by
  induction h with
  | nil =>
    exact ⟨accounted_start cfg mem, _, abstracts_start cfg mem, Increment.sound_zero,
      fun _ => .nil, fun _ _ => rfl⟩
  | @snoc evs s e s' h hs ih =>
    obtain ⟨ha, w, hw, hsound, hiff⟩ := ih
    refine ⟨accounted_step hd hs ha, ?_⟩
    have hsnoc : UndisturbedRun cfg mem (evs ++ [e]) s' ↔
        UndisturbedRun cfg mem evs s ∧ Undisturbed s e := by
      refine ⟨fun hrun => ?_, fun hrun => hrun.1.snoc ⟨hs, hrun.2⟩⟩
      obtain ⟨s₁, hrun₁, -, he⟩ := hrun.snoc_inv
      have hplain : Run cfg mem evs s₁ := hrun₁.mono fun _ _ _ hstep => hstep.1
      obtain rfl : s = s₁ := h.deterministic step_deterministic hplain
      exact ⟨hrun₁, he⟩
    obtain ⟨w', hw', ⟨hnone, rfl⟩ | ⟨a, hsome, hstep⟩⟩ := abstracts_step hd hs ha hw
    · refine ⟨w', hw', ?_⟩
      have hquiet : Undisturbed s e := by
        cases e with
        | create t => trivial
        | join t => trivial
        | thread t b => cases b <;> trivial
      rw [accesses_snoc, hnone, hsnoc, ← hiff]
      simpa [hquiet] using hsound
    · refine ⟨w', hw', ?_⟩
      rw [accesses_snoc, hsome, hsnoc, ← hiff, ← undisturbed_iff hd hs ha hw hsound hfit hsome]
      exact ⟨Increment.sound_step hstep hsound, Increment.faithful_step_iff hstep hsound⟩

/-- The sum has kept every store exactly if the cells have. -/
theorem growth_iff_faithful (hhost : cfg.host.Contiguous) (hfit : cfg.increments < 2 ^ 64)
    (ha : Accounted cfg evs s) {w : Increment.Cells (Fin cfg.NTHREADS) ℕ}
    (hw : Abstracts mem s w) (hsound : Increment.Sound (accesses evs) w) :
    growth cfg mem s = BitVec.ofNat 64 (∑ c ∈ cfg.host.online, writes c evs) ↔
      Increment.Faithful (accesses evs) w := by
  have hle : ∀ c, w.count c ≤ writes c evs := fun c => stores_accesses c evs ▸ hsound.count_le c
  have hsum := Finset.sum_le_sum fun c (_ : c ∈ cfg.host.online) => hle c
  have htotal := sum_writes_le ha
  rw [growth_eq hhost hw, ← BitVec.toNat_inj, BitVec.toNat_ofNat, BitVec.toNat_ofNat,
    Nat.mod_eq_of_lt (by omega), Nat.mod_eq_of_lt (by omega),
    Finset.sum_eq_sum_iff_of_le fun c _ => hle c]
  simp only [Increment.Faithful, stores_accesses]
  refine ⟨fun hall c => ?_, fun hall c _ => hall c⟩
  by_cases hc : c ∈ cfg.host.online
  · exact hall c hc
  · have hzero := ha.outside c hc
    have := hle c
    omega

theorem increments_of_mode {MODE : String} (hop : selectOperation MODE = some cfg.operation) :
    cfg.increments =
      if MODE = "regular" ∨ MODE = "lock" then cfg.NTHREADS * cfg.rounds.toNat else 0 := by
  unfold Config.increments
  rcases selectOperation_cases hop with ⟨rfl, h⟩ | ⟨rfl, h⟩ | ⟨hnr, hnl, h⟩
  · rw [h, if_pos (Or.inl rfl), show operationRegular.code.count .store = 1 from rfl, mul_one]
  · rw [h, if_pos (Or.inr rfl), show operationLock.code.count .store = 1 from rfl, mul_one]
  · rw [h, if_neg (by simp [hnr, hnl])]
    rfl

end

/-- In a run of any mode that cannot wrap around, the sum of the counters has
grown by the number of stores exactly if each of them found its counter as its
thread had read it. Once the threads are joined, `regular` and `lock` have stored
all increments and the other modes none. -/
theorem growth_exact_iff (cfg : Config) (mem : ℕ → BitVec 64) (MODE : String)
    (hop : selectOperation MODE = some cfg.operation) (hhost : cfg.host.Contiguous)
    (hfit : cfg.increments < 2 ^ 64) (evs : List (Event cfg.NTHREADS))
    (s : State cfg.NTHREADS) (h : Run cfg mem evs s) :
    (growth cfg mem s = BitVec.ofNat 64 (∑ c ∈ cfg.host.online, writes c evs) ↔
      UndisturbedRun cfg mem evs s) ∧
    (s.joined = cfg.NTHREADS → ∑ c ∈ cfg.host.online, writes c evs =
      if MODE = "regular" ∨ MODE = "lock" then cfg.NTHREADS * cfg.rounds.toNat else 0) := by
  obtain ⟨ha, w, hw, hsound, hiff⟩ :=
    run_faithful_iff (selectOperation_disciplined hop) hfit h
  refine ⟨(growth_iff_faithful hhost hfit ha hw hsound).trans hiff, fun hj => ?_⟩
  rw [← increments_of_mode hop]
  exact sum_writes_of_returned ha fun t => ha.joined t (by rw [hj]; exact t.isLt)

/-- Two threads with three rounds each on two processors, run one after the other. -/
theorem growth_exact_two :
    let cfg : Config := ⟨2, 3, operationRegular, ⟨Finset.range 2, by decide⟩⟩
    ∃ evs s, UndisturbedRun cfg (fun _ => 41) evs s ∧ growth cfg (fun _ => 41) s = 6 := by
  intro cfg
  have hhost : cfg.host.Contiguous := by simp [cfg, Host.Contiguous, Host.CPUS]
  obtain ⟨evs, s, h, hj, hsum⟩ :=
    exists_complete selectOperation_regular hhost.hasEntry .nil (parked_start cfg fun _ => 41) rfl
  have hgrowth : growth cfg (fun _ => 41) s = 6 := by
    rw [growth, hsum, owed_start, counterSum_start, add_sub_cancel_left]
    rfl
  obtain ⟨hiff, htotal⟩ := growth_exact_iff cfg _ "regular" rfl hhost (by decide) evs s h
  exact ⟨evs, s, hiff.1 (by rw [hgrowth, htotal hj]; rfl), hgrowth⟩

end SyscallAdvent.Rseq
