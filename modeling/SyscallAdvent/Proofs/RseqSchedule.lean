import SyscallAdvent.Proofs.RseqRun

/-! Schedules that exist. A thread can always run its rounds alone, so every
configuration has a complete run that counts each round once; and two threads
of the regular variant can be scheduled so that one overwrites any number of
rounds of the other. -/

namespace SyscallAdvent.Rseq

open Transition

/-- Steps of thread `t` alone, on its locals and the counter memory. -/
inductive Solo (cfg : Config) (t : Fin cfg.NTHREADS) (th : Thread) (m : Counters cfg.NTHREADS) :
    Thread → Counters cfg.NTHREADS → Prop
  | refl : Solo cfg t th m th m
  | snoc {th' m' a th'' m''} : Solo cfg t th m th' m' → ThreadStep cfg t th' m' a th'' m'' →
      Solo cfg t th m th'' m''

theorem Solo.leads {cfg : Config} {t : Fin cfg.NTHREADS} {s : State cfg.NTHREADS} {th : Thread}
    {m : Counters cfg.NTHREADS} (h : Solo cfg t (s.threads t) s.counters th m) :
    Leads (Step cfg) s { s with threads := Function.update s.threads t th, counters := m } := by
  induction h with
  | refl => simpa using Leads.refl s
  | @snoc th' m' a th'' m'' _ hs ih =>
    have h2 : Step cfg { s with threads := Function.update s.threads t th', counters := m' }
        (.thread t a) _ := .thread (t := t) (by simpa using hs)
    simpa using ih.trans (.single h2)

theorem Solo.trans {cfg : Config} {t : Fin cfg.NTHREADS} {th th' th'' : Thread}
    {m m' m'' : Counters cfg.NTHREADS} (h : Solo cfg t th m th' m')
    (h' : Solo cfg t th' m' th'' m'') : Solo cfg t th m th'' m'' := by
  induction h' with
  | refl => exact h
  | snoc _ hs ih => exact ih.snoc hs

theorem Solo.congr {cfg : Config} {t : Fin cfg.NTHREADS} {th th' : Thread}
    {m m' m'' : Counters cfg.NTHREADS} (h : Solo cfg t th m th' m') (he : m' = m'') :
    Solo cfg t th m th' m'' := he ▸ h

/-- Entry `c` with `n` more counts. -/
def addTo {N : ℕ} (m : Counters N) (c n : ℕ) : Counters N :=
  Function.update m c { m c with counter := (m c).counter + BitVec.ofNat 64 n }

@[simp] theorem addTo_zero {N : ℕ} (m : Counters N) (c : ℕ) : addTo m c 0 = m := by
  simp [addTo]

@[simp] theorem addTo_mutex {N : ℕ} (m : Counters N) (c n d : ℕ) :
    (addTo m c n d).mutex = (m d).mutex := by
  rcases eq_or_ne d c with rfl | hne
  · simp [addTo]
  · simp [addTo, hne]

theorem addTo_addTo {N : ℕ} (m : Counters N) (c n k : ℕ) :
    addTo (addTo m c n) c k = addTo m c (n + k) := by
  simp [addTo, BitVec.ofNat_add, BitVec.add_assoc]

theorem counterSum_addTo {N : ℕ} {CPUS c : ℕ} (hc : c < CPUS) (m : Counters N) (n : ℕ) :
    counterSum CPUS (addTo m c n) = counterSum CPUS m + BitVec.ofNat 64 n := by
  have hrest : ∑ d ∈ (Finset.range CPUS).erase c, (addTo m c n d).counter =
      ∑ d ∈ (Finset.range CPUS).erase c, (m d).counter :=
    Finset.sum_congr rfl fun d hd => by
      rw [addTo, Function.update_of_ne (Finset.ne_of_mem_erase hd)]
  rw [counterSum_eq, counterSum_eq, ← Finset.add_sum_erase _ _ (Finset.mem_range.2 hc), hrest,
    ← Finset.add_sum_erase _ (fun d => (m d).counter) (Finset.mem_range.2 hc)]
  simp only [addTo, Function.update_self]
  exact add_right_comm _ _ _

/-- One call of a selectable operation on entry `c` by an otherwise idle thread. -/
theorem solo_round {cfg : Config} {MODE : String} (hop : selectOperation MODE = some cfg.operation)
    {t : Fin cfg.NTHREADS} {th : Thread} {m : Counters cfg.NTHREADS} {c : ℕ}
    (hctl : th.ctl = .test) (hi : th.i.toNat < cfg.rounds.toNat) (hc : c ∈ cfg.host.online)
    (hfree : .lock ∈ cfg.operation.code → (m c).mutex = .free) :
    ∃ th', Solo cfg t th m th' (addTo m c (cfg.operation.code.count .store)) ∧
      th'.ctl = .test ∧ th'.i.toNat = th.i.toNat + 1 := by
  have hcall : Solo cfg t th m _ m := .snoc .refl (.call hctl hi)
  rcases selectOperation_cases hop with ⟨-, hop⟩ | ⟨-, hop⟩ | ⟨-, -, hop⟩ <;>
    rw [hop] at hcall hfree ⊢
  · have h1 := ((hcall.snoc (.getcpu c rfl hc)).snoc (.load rfl)).snoc (.store rfl)
    exact ⟨_, h1.snoc (.ret rfl), rfl, toNat_succ_of_lt hi⟩
  · have h1 := (hcall.snoc (.getcpu c rfl hc)).snoc (.lock rfl (hfree (by decide)))
    have h2 := (h1.snoc (.load rfl)).snoc (.store rfl)
    have h3 := (h2.snoc (.unlock rfl (by simp))).snoc (.ret rfl)
    refine ⟨_, h3.congr ?_, rfl, toNat_succ_of_lt hi⟩
    simp [addTo, operationLock, hfree (by decide)]
  · exact ⟨_, (hcall.snoc (.ret rfl)).congr (by simp), rfl, toNat_succ_of_lt hi⟩

/-- No thread is inside an operation and every mutex of the array is free. -/
structure Parked (cfg : Config) (s : State cfg.NTHREADS) : Prop where
  idle : ∀ t rest, (s.threads t).ctl ≠ .run rest
  unlocked : ∀ c < cfg.host.CPUS, (s.counters c).mutex = .free

/-- The rounds that a thread still has to do. -/
def roundsLeft (cfg : Config) (th : Thread) : ℕ := cfg.rounds.toNat - th.i.toNat

/-- What the counters will add up to if nothing is lost from here on. -/
def owed (cfg : Config) (s : State cfg.NTHREADS) : BitVec 64 :=
  counterSum cfg.host.CPUS s.counters +
    BitVec.ofNat 64 (cfg.operation.code.count .store * ∑ t, roundsLeft cfg (s.threads t))

/-- The steps of `thread_handler` around the operation that a thread still has to do. -/
def Ctl.ahead : Ctl → ℕ
  | .unborn => 3
  | .entry => 2
  | .test => 1
  | .run _ => 1
  | .returned => 0

def workLeft (cfg : Config) (s : State cfg.NTHREADS) : ℕ :=
  ∑ t, (roundsLeft cfg (s.threads t) + (s.threads t).ctl.ahead)

/-- The process gets from `s` to `s'` nearer to its end without losing a count. -/
structure Nearer (cfg : Config) (s s' : State cfg.NTHREADS) : Prop where
  leads : Leads (Step cfg) s s'
  parked : Parked cfg s'
  less : workLeft cfg s' < workLeft cfg s
  owed : owed cfg s' = owed cfg s
  joined : s'.joined = s.joined

/-- A thread that moves on outside of the operation. -/
theorem nearer_of_move {cfg : Config} {s : State cfg.NTHREADS} (hp : Parked cfg s)
    (t : Fin cfg.NTHREADS) (c : Ctl) (n : ℕ) (hc : ∀ rest, c ≠ .run rest)
    (hless : c.ahead < (s.threads t).ctl.ahead)
    (hl : Leads (Step cfg) s
      { s with threads := Function.update s.threads t { s.threads t with ctl := c },
               created := n }) :
    Nearer cfg s { s with threads := Function.update s.threads t { s.threads t with ctl := c },
                          created := n } := by
  refine ⟨hl, ⟨fun u rest => ?_, hp.unlocked⟩, ?_, ?_, rfl⟩
  · rcases eq_or_ne u t with rfl | hne
    · simpa using hc rest
    · simpa [hne] using hp.idle u rest
  · have := sum_update (fun th => roundsLeft cfg th + th.ctl.ahead) s.threads t
      { s.threads t with ctl := c }
    simp only [workLeft, roundsLeft] at this ⊢
    omega
  · have := sum_update (roundsLeft cfg) s.threads t { s.threads t with ctl := c }
    simp only [Rseq.owed]
    congr 3
    simp only [roundsLeft] at this ⊢
    omega

theorem nearer_of_round {cfg : Config} {MODE : String}
    (hop : selectOperation MODE = some cfg.operation) (hhost : cfg.host.HasEntry)
    {s : State cfg.NTHREADS} (hp : Parked cfg s) (t : Fin cfg.NTHREADS)
    (hctl : (s.threads t).ctl = .test) (hi : (s.threads t).i.toNat < cfg.rounds.toNat) :
    ∃ s', Nearer cfg s s' := by
  obtain ⟨c, hc, hlt⟩ := hhost
  obtain ⟨th, hsolo, hctl', hi'⟩ := solo_round hop hctl hi hc fun _ => hp.unlocked c hlt
  refine ⟨_, hsolo.leads, ⟨fun u rest => ?_, fun d hd => ?_⟩, ?_, ?_, rfl⟩
  · rcases eq_or_ne u t with rfl | hne
    · simp [hctl']
    · simpa [hne] using hp.idle u rest
  · simpa using hp.unlocked d hd
  · have := sum_update (fun th => roundsLeft cfg th + th.ctl.ahead) s.threads t th
    simp only [workLeft, roundsLeft, hctl, hctl', hi'] at this ⊢
    omega
  · have hsum := sum_update (roundsLeft cfg) s.threads t th
    have hone : roundsLeft cfg (s.threads t) = roundsLeft cfg th + 1 := by
      simp only [roundsLeft, hi']
      omega
    have hleft : ∑ u, roundsLeft cfg (s.threads u) =
        1 + ∑ u, roundsLeft cfg (Function.update s.threads t th u) := by omega
    simp only [Rseq.owed]
    rw [counterSum_addTo hlt, hleft, Nat.mul_add, Nat.mul_one, BitVec.ofNat_add,
      BitVec.add_assoc]

/-- A parked process with an unfinished thread can always get nearer to its end. -/
theorem exists_nearer {cfg : Config} {MODE : String}
    (hop : selectOperation MODE = some cfg.operation) (hhost : cfg.host.HasEntry)
    {evs : List (Event cfg.NTHREADS)} {s : State cfg.NTHREADS} (ha : Accounted cfg evs s)
    (hp : Parked cfg s) (hun : ∃ t, (s.threads t).ctl ≠ .returned) : ∃ s', Nearer cfg s s' := by
  obtain ⟨t, ht⟩ := hun
  rcases Nat.lt_or_ge s.created cfg.NTHREADS with hc | hc
  · have hborn : (s.threads ⟨s.created, hc⟩).ctl = .unborn := (ha.unborn _).2 le_rfl
    exact ⟨_, nearer_of_move hp ⟨s.created, hc⟩ .entry _ (by simp)
      (by rw [hborn]; decide) (.single (.create _ rfl))⟩
  rcases hctl : (s.threads t).ctl with _ | _ | _ | rest | _
  · have := (ha.unborn t).1 hctl
    have := t.isLt
    omega
  · exact ⟨_, nearer_of_move hp t .test s.created (by simp) (by rw [hctl]; decide)
      (.single (.thread (.print hctl)))⟩
  · by_cases hi : (s.threads t).i < cfg.rounds
    · exact nearer_of_round hop hhost hp t hctl hi
    · exact ⟨_, nearer_of_move hp t .returned s.created (by simp) (by rw [hctl]; decide)
        (.single (.thread (.leave hctl hi)))⟩
  · exact absurd hctl (hp.idle t rest)
  · exact absurd hctl ht

/-- A parked state that a run reaches leads to the return of all threads, with
every remaining round counted. -/
theorem finish_threads {cfg : Config} {MODE : String}
    (hop : selectOperation MODE = some cfg.operation) (hhost : cfg.host.HasEntry)
    {mem : ℕ → BitVec 64} (n : ℕ) :
    ∀ {evs : List (Event cfg.NTHREADS)} {s : State cfg.NTHREADS}, Run cfg mem evs s →
      Parked cfg s → workLeft cfg s ≤ n → ∃ evs' s', Run cfg mem evs' s' ∧
        (∀ t, (s'.threads t).ctl = .returned) ∧ owed cfg s' = owed cfg s ∧
        s'.joined = s.joined := by
  induction n with
  | zero =>
    intro evs s h hp hw
    have hall : ∀ t, roundsLeft cfg (s.threads t) + (s.threads t).ctl.ahead = 0 := by
      simpa [workLeft] using hw
    refine ⟨evs, s, h, fun t => ?_, rfl, rfl⟩
    have h0 : (s.threads t).ctl.ahead = 0 := by
      have := hall t
      omega
    revert h0
    cases (s.threads t).ctl <;> simp [Ctl.ahead]
  | succ n ih =>
    intro evs s h hp hw
    by_cases hun : ∃ t, (s.threads t).ctl ≠ .returned
    · have ha := run_accounted (selectOperation_disciplined hop) h
      obtain ⟨s', ⟨evs', hrun⟩, hp', hless, howed, hj⟩ := exists_nearer hop hhost ha hp hun
      obtain ⟨evs'', s'', h'', hret, howed', hj'⟩ := ih (h.trans hrun) hp' (by omega)
      exact ⟨evs'', s'', h'', hret, howed'.trans howed, hj'.trans hj⟩
    · push Not at hun
      exact ⟨evs, s, h, hun, rfl, rfl⟩

/-- `main` joins the threads that have returned, in order. -/
theorem join_threads {cfg : Config} (n : ℕ) :
    ∀ {s : State cfg.NTHREADS}, s.created = cfg.NTHREADS → (∀ t, (s.threads t).ctl = .returned) →
      s.joined + n = cfg.NTHREADS → ∃ s', Leads (Step cfg) s s' ∧ s'.joined = cfg.NTHREADS ∧
        s'.counters = s.counters := by
  induction n with
  | zero => intro s _ _ hj; exact ⟨s, .refl s, hj, rfl⟩
  | succ n ih =>
    intro s hc hret hj
    have h1 := Step.join (s := s) ⟨s.joined, by omega⟩ hc rfl (hret _)
    obtain ⟨s', hl, hj', hm⟩ := ih (s := { s with joined := s.joined + 1, aborts := _ }) hc hret
      (by simp only; omega)
    exact ⟨s', (Leads.single h1).trans hl, hj', hm⟩

/-- From a parked state before the joins there is a complete run that counts
every remaining round. -/
theorem exists_complete {cfg : Config} {MODE : String}
    (hop : selectOperation MODE = some cfg.operation) (hhost : cfg.host.HasEntry)
    {mem : ℕ → BitVec 64} {evs : List (Event cfg.NTHREADS)} {s : State cfg.NTHREADS}
    (h : Run cfg mem evs s) (hp : Parked cfg s) (hj : s.joined = 0) :
    ∃ evs' s', Run cfg mem evs' s' ∧ s'.joined = cfg.NTHREADS ∧
      counterSum cfg.host.CPUS s'.counters = owed cfg s := by
  obtain ⟨evs₁, s₁, h₁, hret, howed, hj₁⟩ := finish_threads hop hhost _ h hp le_rfl
  have ha := run_accounted (selectOperation_disciplined hop) h₁
  have hcr : s₁.created = cfg.NTHREADS := by
    by_contra hne
    have hlt : s₁.created < cfg.NTHREADS := lt_of_le_of_ne ha.created hne
    have := (ha.unborn ⟨s₁.created, hlt⟩).2 le_rfl
    simp [hret] at this
  obtain ⟨s₂, ⟨evs₂, hl⟩, hj₂, hm⟩ := join_threads cfg.NTHREADS hcr hret (by omega)
  refine ⟨_, s₂, h₁.trans hl, hj₂, ?_⟩
  have hdone : ∑ t, roundsLeft cfg (s₁.threads t) = 0 := by
    simp [roundsLeft, fun t => (ha.threads t).finished (hret t)]
  rw [hm, ← howed, owed, hdone]
  exact (BitVec.add_zero _).symm

theorem parked_start (cfg : Config) (mem : ℕ → BitVec 64) :
    Parked cfg (start cfg mem) := by
  refine ⟨fun t rest => by simp [start, Thread.init], fun c hc => ?_⟩
  simp [start, initLocks_apply, hc]

theorem selectOperation_regular : selectOperation "regular" = some operationRegular := rfl

/-- Any number of rounds of the regular variant on one entry. -/
theorem solo_rounds {cfg : Config} (hop : cfg.operation = operationRegular)
    {t : Fin cfg.NTHREADS} {th : Thread} {m : Counters cfg.NTHREADS} {c : ℕ}
    (hctl : th.ctl = .test) (hc : c ∈ cfg.host.online) (d : ℕ)
    (hd : th.i.toNat + d ≤ cfg.rounds.toNat) :
    ∃ th', Solo cfg t th m th' (addTo m c d) ∧ th'.ctl = .test ∧
      th'.i.toNat = th.i.toNat + d := by
  induction d with
  | zero => exact ⟨th, by simpa using Solo.refl, hctl, rfl⟩
  | succ d ih =>
    obtain ⟨th₁, h₁, hctl₁, hi₁⟩ := ih (by omega)
    obtain ⟨th₂, h₂, hctl₂, hi₂⟩ := solo_round (hop ▸ selectOperation_regular) (t := t)
      (m := addTo m c d) (c := c) hctl₁ (by omega) hc (by simp [hop, operationRegular])
    refine ⟨th₂, h₁.trans (h₂.congr ?_), hctl₂, by omega⟩
    rw [hop, addTo_addTo]
    rfl

/-- `main` has created the first `n` threads, which wait at their first loop test. -/
structure Waiting (cfg : Config) (mem : ℕ → BitVec 64) (n : ℕ) (s : State cfg.NTHREADS) :
    Prop where
  leads : Leads (Step cfg) (start cfg mem) s
  created : s.created = n
  joined : s.joined = 0
  counters : s.counters = (start cfg mem).counters
  fresh : ∀ t, (s.threads t).i = 0
  ctl : ∀ t, (s.threads t).ctl = if t.val < n then .test else .unborn

theorem exists_waiting {cfg : Config} (mem : ℕ → BitVec 64) (n : ℕ) (hn : n ≤ cfg.NTHREADS) :
    ∃ s, Waiting cfg mem n s := by
  induction n with
  | zero => exact ⟨_, .refl _, rfl, rfl, rfl, fun _ => rfl, fun _ => by simp [start, Thread.init]⟩
  | succ n ih =>
    obtain ⟨s, hl, hcreated, hjoined, hcounters, hi, hctl⟩ := ih (by omega)
    have h₁ := Step.create (s := s) ⟨n, hn⟩ hcreated
    have h₂ := Step.thread (s := { s with
      created := s.created + 1
      threads := Function.update s.threads ⟨n, hn⟩ { s.threads ⟨n, hn⟩ with ctl := .entry } })
      (t := ⟨n, hn⟩) (.print (by simp))
    refine ⟨_, (hl.trans (.single h₁)).trans (.single h₂), ?_, hjoined, hcounters, ?_, ?_⟩
    · simp [hcreated]
    · intro t
      rcases eq_or_ne t ⟨n, hn⟩ with rfl | hne
      · simp [hi]
      · simp [hne, hi]
    · intro t
      rcases eq_or_ne t ⟨n, hn⟩ with rfl | hne
      · simp
      · have hval := Fin.val_ne_of_ne hne
        have hiff : t.val < n + 1 ↔ t.val < n := by
          simp only at hval
          omega
        simp only [Function.update_of_ne hne, hctl, hiff]

section

variable {cfg : Config} {mem : ℕ → BitVec 64} {n : ℕ} {s : State cfg.NTHREADS}

theorem Waiting.test (h : Waiting cfg mem n s) {t : Fin cfg.NTHREADS} (ht : t.val < n) :
    (s.threads t).ctl = .test := by
  rw [h.ctl, if_pos ht]

theorem Waiting.parked (h : Waiting cfg mem n s) : Parked cfg s := by
  refine ⟨fun t rest => ?_, fun c hc => ?_⟩
  · rw [h.ctl]
    split_ifs <;> simp
  · rw [h.counters]
    exact (parked_start cfg mem).unlocked c hc

theorem Waiting.owed (h : Waiting cfg mem n s) : owed cfg s = owed cfg (start cfg mem) := by
  simp [Rseq.owed, roundsLeft, h.counters, h.fresh, start, Thread.init]

end

end SyscallAdvent.Rseq
