import SyscallAdvent.Proofs.RseqLoss

/-! What a complete run of the regular variant can end with. Two threads are
enough to lose all but two increments: one store is kept back while all others
run, and the last round of another thread starts from it. No run loses more, and
every number in between is the growth of some run. -/

namespace SyscallAdvent.Rseq

open Transition

variable {cfg : Config}

/-- A sum over the threads of which one is replaced. -/
theorem sum_update_at {N : ℕ} (f : Fin N → Thread → ℕ) (ths : Fin N → Thread) (t : Fin N)
    (th : Thread) :
    ∑ u, f u (Function.update ths t th u) + f t (ths t) = ∑ u, f u (ths u) + f t th := by
  have hrest : ∑ u ∈ Finset.univ.erase t, f u (Function.update ths t th u) =
      ∑ u ∈ Finset.univ.erase t, f u (ths u) :=
    Finset.sum_congr rfl fun u hu => by rw [Function.update_of_ne (Finset.ne_of_mem_erase hu)]
  have hnew := Finset.add_sum_erase Finset.univ (fun u => f u (Function.update ths t th u))
    (Finset.mem_univ t)
  have hold := Finset.add_sum_erase Finset.univ (fun u => f u (ths u)) (Finset.mem_univ t)
  simp only [Function.update_self] at hnew
  omega

/-- The rounds that the threads can still do below the bounds `cap`. -/
def room (cap : Fin cfg.NTHREADS → ℕ) (s : State cfg.NTHREADS) : ℕ :=
  ∑ t, (cap t - (s.threads t).i.toNat)

/-- The process gets from `s` to `s'` by `k` rounds of threads below their
bounds, each counted in entry `c`. -/
structure Pooled (cap : Fin cfg.NTHREADS → ℕ) (c k : ℕ) (s s' : State cfg.NTHREADS) : Prop where
  leads : Leads (Step cfg) s s'
  counters : s'.counters = addTo s.counters c k
  spare : room cap s' + k = room cap s
  left : ∑ t, roundsLeft cfg (s'.threads t) + k = ∑ t, roundsLeft cfg (s.threads t)
  fixed : ∀ t, cap t ≤ (s.threads t).i.toNat → s'.threads t = s.threads t
  bound : ∀ t, (s'.threads t).i.toNat ≤ max (s.threads t).i.toNat (cap t)
  ctl : ∀ t, (s'.threads t).ctl = (s.threads t).ctl
  joined : s'.joined = s.joined

theorem Pooled.refl (cap : Fin cfg.NTHREADS → ℕ) (c : ℕ) (s : State cfg.NTHREADS) :
    Pooled cap c 0 s s :=
  ⟨.refl s, (addTo_zero _ _).symm, rfl, rfl, fun _ _ => rfl, fun _ => le_max_left _ _,
    fun _ => rfl, rfl⟩

/-- One more round, by any thread below its bound. -/
theorem Pooled.succ (hop : cfg.operation = operationRegular) {cap : Fin cfg.NTHREADS → ℕ}
    {c k : ℕ} {s s₁ : State cfg.NTHREADS} (hp : Pooled cap c k s s₁)
    (hcap : ∀ t, cap t ≤ cfg.rounds.toNat)
    (htest : ∀ t, (s.threads t).i.toNat < cap t → (s.threads t).ctl = .test)
    (hc : c ∈ cfg.host.online) (hroom : room cap s₁ ≠ 0) : ∃ s', Pooled cap c (k + 1) s s' := by
  obtain ⟨t, -, ht⟩ := Finset.exists_ne_zero_of_sum_ne_zero hroom
  have hlt : (s₁.threads t).i.toNat < cap t := by omega
  have hbelow : (s.threads t).i.toNat < cap t := by
    by_contra hge
    rw [hp.fixed t (by omega)] at hlt
    exact hge hlt
  have hR := hcap t
  have hctl : (s₁.threads t).ctl = .test := (hp.ctl t).trans (htest t hbelow)
  obtain ⟨th, hsolo, hctl', hi⟩ := solo_rounds hop (m := s₁.counters) hctl hc 1
    (by omega)
  have hspare := hp.spare
  have hleft := hp.left
  have hroom₁ := sum_update_at (fun u x => cap u - x.i.toNat) s₁.threads t th
  have hleft₁ := sum_update (roundsLeft cfg) s₁.threads t th
  simp only [roundsLeft, hi] at hroom₁ hleft₁
  refine ⟨_, hp.leads.trans hsolo.leads, ?_, ?_, ?_, fun u hu => ?_, fun u => ?_, fun u => ?_,
    hp.joined⟩
  · simp only [hp.counters, addTo_addTo]
  · simp only [room] at hspare ⊢
    omega
  · simp only [roundsLeft] at hleft ⊢
    omega
  · have hne : u ≠ t := by
      rintro rfl
      omega
    simpa only [Function.update_of_ne hne] using hp.fixed u hu
  · rcases eq_or_ne u t with rfl | hne
    · simp only [Function.update_self, hi]
      omega
    · simpa only [Function.update_of_ne hne] using hp.bound u
  · rcases eq_or_ne u t with rfl | hne
    · simpa only [Function.update_self, hctl'] using hctl.symm.trans (hp.ctl u)
    · simpa only [Function.update_of_ne hne] using hp.ctl u

/-- Any number of rounds up to the room that there is. -/
theorem exists_pooled (hop : cfg.operation = operationRegular) {cap : Fin cfg.NTHREADS → ℕ}
    {c : ℕ} {s : State cfg.NTHREADS} (hcap : ∀ t, cap t ≤ cfg.rounds.toNat)
    (htest : ∀ t, (s.threads t).i.toNat < cap t → (s.threads t).ctl = .test)
    (hc : c ∈ cfg.host.online) (k : ℕ) (hk : k ≤ room cap s) : ∃ s', Pooled cap c k s s' := by
  induction k with
  | zero => exact ⟨s, .refl cap c s⟩
  | succ k ih =>
    obtain ⟨s₁, hp⟩ := ih (by omega)
    have hspare := hp.spare
    exact hp.succ hop hcap htest hc (by omega)

/-- The process gets from `s` to `s'` by a round of thread `a` whose store
overwrites `k` rounds that threads below their bounds have done since its load. -/
structure Lost (cap : Fin cfg.NTHREADS → ℕ) (a : Fin cfg.NTHREADS) (c k : ℕ)
    (s s' : State cfg.NTHREADS) : Prop where
  leads : Leads (Step cfg) s s'
  counters : s'.counters = addTo s.counters c 1
  spare : room cap s' + k = room cap s
  left : ∑ t, roundsLeft cfg (s'.threads t) + (k + 1) = ∑ t, roundsLeft cfg (s.threads t)
  own : (s'.threads a).i.toNat = (s.threads a).i.toNat + 1
  bound : ∀ t, t ≠ a → (s'.threads t).i.toNat ≤ max (s.threads t).i.toNat (cap t)
  ctl : ∀ t, (s'.threads t).ctl = (s.threads t).ctl
  joined : s'.joined = s.joined

theorem exists_lost (hop : cfg.operation = operationRegular) {cap : Fin cfg.NTHREADS → ℕ}
    {a : Fin cfg.NTHREADS} {c : ℕ} {s : State cfg.NTHREADS}
    (hcap : ∀ t, cap t ≤ cfg.rounds.toNat) (ha : cap a = 0) (hctl : ∀ t, (s.threads t).ctl = .test)
    (hi : (s.threads a).i.toNat < cfg.rounds.toNat) (hc : c ∈ cfg.host.online)
    (k : ℕ) (hk : k ≤ room cap s) : ∃ s', Lost cap a c k s s' := by
  obtain ⟨th₀, hread, hctl₀, hcpu, htmp, hi₀⟩ : ∃ th₀,
      Solo cfg a (s.threads a) s.counters th₀ s.counters ∧ th₀.ctl = .run [.store] ∧
        th₀.cpuId = c ∧ th₀.tmp = (s.counters c).counter ∧ th₀.i = (s.threads a).i :=
    ⟨_, ((Solo.refl.snoc (.call (hctl a) hi)).snoc (.getcpu c (by rw [hop]; rfl) hc)).snoc
      (.load rfl), rfl, rfl, rfl, rfl⟩
  let s₀ : State cfg.NTHREADS := { s with threads := Function.update s.threads a th₀ }
  have hi₀' : ∀ t, (s₀.threads t).i = (s.threads t).i := by
    intro t
    rcases eq_or_ne t a with rfl | hne
    · simpa [s₀] using hi₀
    · simp [s₀, hne]
  have hroom₀ : room cap s₀ = room cap s := by simp only [room, hi₀']
  obtain ⟨s₁, hp⟩ := exists_pooled hop (s := s₀) (c := c) hcap
    (by
      intro t ht
      rcases eq_or_ne t a with rfl | hne
      · omega
      · simpa [s₀, hne] using hctl t)
    hc k (hroom₀ ▸ hk)
  have hown : s₁.threads a = th₀ := by
    rw [hp.fixed a (by omega)]
    simp [s₀]
  obtain ⟨th, hstore, hctl₂, hith⟩ : ∃ th,
      Solo cfg a th₀ s₁.counters th (addTo s.counters c 1) ∧ th.ctl = .test ∧ th.i = th₀.i + 1 :=
    ⟨_, ((Solo.refl.snoc (.store hctl₀)).snoc (.ret rfl)).congr
      (by simp [hp.counters, s₀, addTo, hcpu, htmp]), rfl, rfl⟩
  have hi₂ : th.i.toNat = (s.threads a).i.toNat + 1 := by
    rw [hith, hi₀, toNat_succ_of_lt hi]
  have h₃ := Solo.leads (t := a) (s := s₁) (by rw [hown]; exact hstore)
  refine ⟨_, (Solo.leads hread).trans (hp.leads.trans h₃), rfl, ?_, ?_, ?_, fun t ht => ?_,
    fun t => ?_, hp.joined⟩
  · have hroom₂ := sum_update_at (fun u x => cap u - x.i.toNat) s₁.threads a th
    have hspare := hp.spare
    rw [hroom₀] at hspare
    simp only [ha, Nat.zero_sub, Nat.add_zero] at hroom₂
    simpa only [room, hroom₂] using hspare
  · have hleft₂ := sum_update (roundsLeft cfg) s₁.threads a th
    have hleft := hp.left
    simp only [roundsLeft, hi₀', hown, hi₀, hi₂] at hleft₂ hleft ⊢
    omega
  · simp only [Function.update_self, hi₂]
  · simp only [Function.update_of_ne ht]
    have := hp.bound t
    rwa [hi₀'] at this
  · rcases eq_or_ne t a with rfl | hne
    · simp only [Function.update_self, hctl₂, hctl]
    · have hsame : (s₀.threads t).ctl = (s.threads t).ctl := by simp [s₀, hne]
      simpa only [Function.update_of_ne hne, hsame] using hp.ctl t

/-- The bounds under which thread `b` keeps its last round and thread `a` all of its own. -/
def keepingBack (cfg : Config) (a b t : Fin cfg.NTHREADS) : ℕ :=
  if t = a then 0 else if t = b then cfg.rounds.toNat - 1 else cfg.rounds.toNat

theorem keepingBack_le (cfg : Config) (a b t : Fin cfg.NTHREADS) :
    keepingBack cfg a b t ≤ cfg.rounds.toNat := by
  unfold keepingBack
  split_ifs <;> omega

/-- The bounds under which only thread `a` does rounds. -/
def onlyOf (cfg : Config) (a t : Fin cfg.NTHREADS) : ℕ := if t = a then cfg.rounds.toNat else 0

theorem onlyOf_le (cfg : Config) (a t : Fin cfg.NTHREADS) :
    onlyOf cfg a t ≤ cfg.rounds.toNat := by
  unfold onlyOf
  split_ifs <;> omega

theorem sum_keepingBack {a b : Fin cfg.NTHREADS} (hne : b ≠ a) (hR : 0 < cfg.rounds.toNat) :
    ∑ t, keepingBack cfg a b t + cfg.rounds.toNat + 1 = cfg.NTHREADS * cfg.rounds.toNat := by
  have hone : ∀ t, keepingBack cfg a b t + (if t = a then cfg.rounds.toNat else 0) +
      (if t = b then 1 else 0) = cfg.rounds.toNat := by
    intro t
    unfold keepingBack
    rcases eq_or_ne t a with rfl | ha
    · simp [hne.symm]
    · rcases eq_or_ne t b with rfl | hb
      · simp only [ha, if_false, if_true]
        omega
      · simp [ha, hb]
  have hsum := Finset.sum_congr (rfl : Finset.univ = _) fun t _ => hone t
  simpa [Finset.sum_add_distrib] using hsum

/-- A schedule that ends with `2 + x + y` counts: `x` rounds of the first thread
and `y` rounds of the others are not overwritten. -/
theorem exists_growth (hop : cfg.operation = operationRegular) (hhost : cfg.host.Contiguous)
    (hN : 2 ≤ cfg.NTHREADS) (hR : 2 ≤ cfg.rounds.toNat) (mem : ℕ → BitVec 64) {x y : ℕ}
    (hx : x + 1 ≤ cfg.rounds.toNat)
    (hy : y + cfg.rounds.toNat + 1 ≤ cfg.NTHREADS * cfg.rounds.toNat) :
    ∃ evs s, Run cfg mem evs s ∧ s.joined = cfg.NTHREADS ∧
      growth cfg mem s = BitVec.ofNat 64 (2 + x + y) := by
  obtain ⟨a, b, hab⟩ : ∃ a b : Fin cfg.NTHREADS, b ≠ a :=
    ⟨⟨0, by omega⟩, ⟨1, by omega⟩, by simp⟩
  obtain ⟨c, hc⟩ := cfg.host.nonempty
  obtain ⟨s₀, hw⟩ := exists_waiting mem cfg.NTHREADS le_rfl
  have hi₀ := hw.fresh
  have htest₀ : ∀ t, (s₀.threads t).ctl = .test := fun t => hw.test t.isLt
  have hroom₀ : room (keepingBack cfg a b) s₀ + cfg.rounds.toNat + 1 =
      cfg.NTHREADS * cfg.rounds.toNat := by
    simpa [room, hi₀] using sum_keepingBack hab (by omega)
  -- `a` overwrites all that the others do but `y` rounds and the last of `b`
  obtain ⟨s₁, h₁⟩ := exists_lost hop (a := a) (keepingBack_le cfg a b) (by simp [keepingBack])
    htest₀ (by rw [hi₀]; exact Nat.lt_of_lt_of_le Nat.two_pos hR) hc
    (room (keepingBack cfg a b) s₀ - y) (by omega)
  have htest₁ : ∀ t, (s₁.threads t).ctl = .test := fun t => (h₁.ctl t).trans (htest₀ t)
  have hspare₁ := h₁.spare
  obtain ⟨s₂, h₂⟩ := exists_pooled hop (keepingBack_le cfg a b) (fun t _ => htest₁ t) hc y
    (by omega)
  have htest₂ : ∀ t, (s₂.threads t).ctl = .test := fun t => (h₂.ctl t).trans (htest₁ t)
  have ha₂ : (s₂.threads a).i.toNat = 1 := by
    rw [h₂.fixed a (by simp [keepingBack]), h₁.own, hi₀]
    rfl
  have hb₂ : (s₂.threads b).i.toNat < cfg.rounds.toNat := by
    have hbound₁ := h₁.bound b hab
    have hbound₂ := h₂.bound b
    simp only [keepingBack, hab, if_false, if_true, hi₀] at hbound₁ hbound₂
    simp at hbound₁
    omega
  -- `b` overwrites all that `a` does but `x` rounds
  have hroom₂ : room (onlyOf cfg a) s₂ = cfg.rounds.toNat - 1 := by
    rw [room, Finset.sum_eq_single a (fun t _ ht => by simp [onlyOf, ht]) (by simp)]
    simp [onlyOf, ha₂]
  obtain ⟨s₃, h₃⟩ := exists_lost hop (a := b) (onlyOf_le cfg a) (by simp [onlyOf, hab]) htest₂
    hb₂ hc (cfg.rounds.toNat - 1 - x) (by omega)
  have hcounters₃ : s₃.counters = addTo s₀.counters c (2 + y) := by
    rw [h₃.counters, h₂.counters, h₁.counters, addTo_addTo, addTo_addTo]
    congr 1
    omega
  have hparked : Parked cfg s₃ := by
    refine ⟨fun t rest => ?_, fun d hd => ?_⟩
    · rw [h₃.ctl, htest₂]
      simp
    · rw [hcounters₃]
      simpa using hw.parked.unlocked d hd
  have hleft₃ : ∑ t, roundsLeft cfg (s₃.threads t) = x := by
    have hleft₀ : ∑ t, roundsLeft cfg (s₀.threads t) = cfg.NTHREADS * cfg.rounds.toNat := by
      simp [roundsLeft, hi₀]
    have hleft₁ := h₁.left
    have hleft₂ := h₂.left
    have hleft₃ := h₃.left
    omega
  have hjoined₃ : s₃.joined = 0 := h₃.joined.trans (h₂.joined.trans (h₁.joined.trans hw.joined))
  obtain ⟨evs, hrun⟩ := ((hw.leads.trans h₁.leads).trans h₂.leads).trans h₃.leads
  obtain ⟨evs', s, h, hj, hsum⟩ :=
    exists_complete (hop ▸ selectOperation_regular) hhost.hasEntry hrun hparked hjoined₃
  refine ⟨evs', s, h, hj, ?_⟩
  rw [growth, hsum, owed, hleft₃, hcounters₃, counterSum_addTo (hhost.lt hc), hw.counters, hop,
    show operationRegular.code.count .store = 1 from rfl, one_mul, add_assoc,
    add_sub_cancel_left, ← BitVec.ofNat_add]
  congr 1
  omega

/-- With two threads and two rounds or more, at least two increments survive. -/
theorem two_le_growth (hop : cfg.operation = operationRegular) (hhost : cfg.host.Contiguous)
    (hN : 2 ≤ cfg.NTHREADS) (hR : 2 ≤ cfg.rounds.toNat) {mem : ℕ → BitVec 64}
    {evs : List (Event cfg.NTHREADS)} {s : State cfg.NTHREADS} (h : Run cfg mem evs s)
    (hj : s.joined = cfg.NTHREADS) :
    ∃ n, 2 ≤ n ∧ n ≤ cfg.NTHREADS * cfg.rounds.toNat ∧ growth cfg mem s = BitVec.ofNat 64 n := by
  have hd : Disciplined cfg.operation.code := by
    rw [hop]
    decide
  have hone : cfg.operation.code.count .store = 1 := by rw [hop]; rfl
  obtain ⟨ha, w, hw, hrun⟩ := run_abstracts hd h
  have hsound := Increment.run_sound hrun
  have hret : ∀ t, (s.threads t).ctl = .returned := fun t =>
    ha.joined t (by rw [hj]; exact t.isLt)
  have htotal := sum_writes_of_returned ha hret
  rw [Config.increments, hone, Nat.mul_one] at htotal
  refine ⟨_, ?_, ?_, growth_eq hhost hw⟩
  · refine hsound.two_le (fun c hc => ?_) ?_ fun t => ?_
    · by_contra hout
      rw [stores_accesses, ha.outside c hout] at hc
      exact hc rfl
    · have hpos : 0 < cfg.NTHREADS * cfg.rounds.toNat := Nat.mul_pos (by omega) (by omega)
      obtain ⟨c, -, hc⟩ := Finset.exists_ne_zero_of_sum_ne_zero (htotal.trans_ne hpos.ne')
      exact ⟨c, by rwa [stores_accesses]⟩
    · rw [run_storesOf hd h, executed, hret t, (ha.threads t).finished (hret t), hone]
      simp only
      omega
  · rw [← htotal]
    exact Finset.sum_le_sum fun c _ => stores_accesses c evs ▸ hsound.count_le c

/-- The growths that complete runs of the regular variant can end with are the
numbers from two to all increments. -/
theorem regular_growth_iff (cfg : Config) (mem : ℕ → BitVec 64)
    (hop : cfg.operation = operationRegular) (hhost : cfg.host.Contiguous)
    (hN : 2 ≤ cfg.NTHREADS) (hR : 2 ≤ cfg.rounds.toNat) (g : BitVec 64) :
    (∃ evs s, Run cfg mem evs s ∧ s.joined = cfg.NTHREADS ∧ growth cfg mem s = g) ↔
      ∃ n, 2 ≤ n ∧ n ≤ cfg.NTHREADS * cfg.rounds.toNat ∧ g = BitVec.ofNat 64 n := by
  constructor
  · rintro ⟨evs, s, h, hj, rfl⟩
    exact two_le_growth hop hhost hN hR h hj
  · rintro ⟨n, hlow, hhigh, rfl⟩
    have hmul := Nat.mul_le_mul_right cfg.rounds.toNat hN
    obtain ⟨x, y, hx, hy, rfl⟩ : ∃ x y, x + 1 ≤ cfg.rounds.toNat ∧
        y + cfg.rounds.toNat + 1 ≤ cfg.NTHREADS * cfg.rounds.toNat ∧ n = 2 + x + y :=
      ⟨min (n - 2) (cfg.rounds.toNat - 1), n - 2 - min (n - 2) (cfg.rounds.toNat - 1),
        by omega, by omega, by omega⟩
    exact exists_growth hop hhost hN hR mem hx hy

/-- Four threads with five rounds each on two processors: eighteen of the twenty
increments can get lost. -/
theorem regular_growth_four :
    let cfg : Config := ⟨4, 5, operationRegular, ⟨Finset.range 2, by decide⟩⟩
    ∃ evs s, Run cfg (fun _ => 0) evs s ∧ s.joined = 4 ∧ growth cfg (fun _ => 0) s = 2 := by
  intro cfg
  exact (regular_growth_iff cfg (fun _ => 0) rfl (by simp [cfg, Host.Contiguous, Host.CPUS])
    (by decide) (by decide) 2).2 ⟨2, le_rfl, by decide, rfl⟩

end SyscallAdvent.Rseq
