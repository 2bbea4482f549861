import SyscallAdvent.Proofs.ThroughputAccount

/-! How far apart the lines are. Only whole seconds are compared, so a line comes
too early exactly when the clock has reached the next second, but not yet the
nanoseconds of the time stamp. -/

namespace SyscallAdvent.Throughput

open Transition

theorem Timespec.value_add_one_le_iff {a b : Timespec} (ha : a.Valid) (hb : b.Valid)
    (h : a.sec < b.sec) :
    a.value + 1 ≤ b.value ↔ ¬ (b.sec = a.sec + 1 ∧ b.nsec < a.nsec) := by
  have hnano : a.value + 1 ≤ b.value ↔
      (a.sec + 1) * 1000000000 + a.nsec ≤ b.sec * 1000000000 + b.nsec := by
    have hcast : ((a.sec + 1) * 1000000000 + a.nsec : ℚ) ≤ b.sec * 1000000000 + b.nsec ↔
        (a.sec + 1) * 1000000000 + a.nsec ≤ b.sec * 1000000000 + b.nsec := by norm_cast
    rw [← hcast]
    unfold value
    constructor
    · intro _
      linarith
    · intro _
      linarith
  rw [hnano]
  have := ha.lt
  have := hb.nsec
  omega

section

variable {n : ℕ} {s s' : State n} {e : Event n} {t now : Timespec}

/-- Nothing is later than the time stamp. -/
structure Bounded (s : State n) : Prop where
  lines : ∀ l ∈ s.meter.lines, l.now.value ≤ s.meter.last.value
  first : ∀ t, s.first = some t → t.value ≤ s.meter.last.value

theorem bounded_start (bytes : Fin n → BitVec 64) : Bounded (start bytes) where
  lines := fun _ h => nomatch h
  first := fun _ h => nomatch h

theorem bounded_step (hs : Stamped s) (h : Bounded s) (hstep : Step Clocked s e s') :
    Bounded s' := by
  obtain ⟨hclock, hexec⟩ := hstep
  cases e with
  | add i count =>
    obtain rfl := Option.some.inj hexec
    exact ⟨h.lines, h.first⟩
  | call now =>
    cases exec_called hs hexec with
    | first hnone =>
      refine ⟨fun l hl => ?_, fun t ht => by rw [← Option.some.inj ht]⟩
      rw [(hs.unset hnone).2] at hl
      exact nomatch hl
    | print hsome hlt =>
      have hle := (Timespec.value_lt (hs.valid _ hsome) hclock hlt).le
      exact ⟨List.forall_mem_cons.2 ⟨le_rfl, fun l hl => (h.lines l hl).trans hle⟩,
        fun t ht => (h.first t ht).trans hle⟩
    | skip => exact h

/-- A line is early exactly if it is too close to the time stamp. -/
theorem throttled_print_iff (hs : Stamped s) (h : Bounded s) (ht : s.first = some t) :
    Throttled { s with meter := ⟨now, fun _ => 0, line now s.meter :: s.meter.lines⟩ } ↔
      Throttled s ∧ s.meter.last.value + 1 ≤ now.value := by
  constructor
  · rintro ⟨hlines, hfirst⟩
    obtain ⟨hhead, htail⟩ := List.pairwise_cons.1 hlines
    refine ⟨⟨htail, fun l hl => hfirst l (List.mem_cons_of_mem _ hl)⟩, ?_⟩
    rw [hs.latest t ht]
    cases hl : s.meter.lines with
    | nil => exact hfirst _ List.mem_cons_self t ht
    | cons l ls => exact hhead l (hl ▸ List.mem_cons_self)
  · rintro ⟨⟨hlines, hfirst⟩, hnow⟩
    refine ⟨List.pairwise_cons.2 ⟨fun l hl => ?_, hlines⟩,
      List.forall_mem_cons.2 ⟨fun t' ht' => ?_, hfirst⟩⟩
    · exact (by simpa using h.lines l hl : l.now.value + 1 ≤ s.meter.last.value + 1).trans hnow
    · exact (by simpa using h.first t' ht' : t'.value + 1 ≤ s.meter.last.value + 1).trans hnow

theorem throttled_step_iff (hs : Stamped s) (h : Bounded s) (hstep : Step Clocked s e s') :
    Throttled s' ↔ Throttled s ∧ Apart s e := by
  obtain ⟨hclock, hexec⟩ := hstep
  cases e with
  | add i count =>
    obtain rfl := Option.some.inj hexec
    exact (and_iff_left trivial).symm
  | call now =>
    cases exec_called hs hexec with
    | first hnone =>
      obtain ⟨hlast, hlines⟩ := hs.unset hnone
      have hapart : Apart s (.call now) := by
        have := hclock.nsec
        simp only [Apart, hlast]
        omega
      simp [Throttled, hlines, hapart]
    | print hsome hlt =>
      rw [throttled_print_iff hs h hsome,
        Timespec.value_add_one_le_iff (hs.valid _ hsome) hclock hlt]
      rfl
    | skip hsome hle =>
      have hapart : Apart s (.call now) := by
        simp only [Apart]
        omega
      exact (and_iff_left hapart).symm

theorem run_bounded {bytes : Fin n → BitVec 64} {evs : List (Event n)}
    (h : Run (Step Clocked) (start bytes) evs s) : Bounded s := by
  induction h with
  | nil => exact bounded_start bytes
  | snoc hrun hstep ih => exact bounded_step (run_stamped hrun) ih hstep

end

/-- No two lines are closer than a second exactly if no call of the run comes in
the second after the time stamp's, but earlier in it. -/
theorem throttled_iff {n : ℕ} (bytes : Fin n → BitVec 64) {evs : List (Event n)} {s : State n}
    (h : Run (Step Clocked) (start bytes) evs s) :
    Throttled s ↔ Run (Step fun s e => Clocked s e ∧ Apart s e) (start bytes) evs s := by
  constructor
  · intro hthrottled
    induction h with
    | nil => exact .nil
    | snoc hrun hstep ih =>
      obtain ⟨hbefore, hapart⟩ :=
        (throttled_step_iff (run_stamped hrun) (run_bounded hrun) hstep).1 hthrottled
      exact (ih hbefore).snoc ⟨⟨hstep.1, hapart⟩, hstep.2⟩
  · intro hrun
    clear h
    induction hrun with
    | nil => exact ⟨.nil, fun _ h => nomatch h⟩
    | snoc hrun hstep ih =>
      have hrun := run_weaken (fun _ _ h => h.1) hrun
      obtain ⟨⟨hclock, hapart⟩, hexec⟩ := hstep
      exact (throttled_step_iff (run_stamped hrun) (run_bounded hrun) ⟨hclock, hexec⟩).2
        ⟨ih, hapart⟩

/-- A call every second and a half. -/
theorem throttled_apart :
    ∃ s : State 1, Run (Step Clocked) (start fun _ => 0)
        [.call ⟨1, 0⟩, .call ⟨2, 500000000⟩, .call ⟨4, 0⟩] s ∧
      s.meter.lines.map Line.now = [⟨4, 0⟩, ⟨2, 500000000⟩] ∧ Throttled s := by
  have h1 : (⟨1, 0⟩ : Timespec).Valid := by decide
  have h2 : (⟨2, 500000000⟩ : Timespec).Valid := by decide
  have h3 : (⟨4, 0⟩ : Timespec).Valid := by decide
  have hapart1 : ¬ ((1 : ℤ) = 0 + 1 ∧ (0 : ℤ) < 0) := by decide
  have hapart2 : ¬ ((2 : ℤ) = 1 + 1 ∧ (500000000 : ℤ) < 0) := by decide
  have hapart3 : ¬ ((4 : ℤ) = 2 + 1 ∧ (0 : ℤ) < 500000000) := by decide
  have hrun : Run (Step fun s e => Clocked s e ∧ Apart s e) (start fun _ : Fin 1 => 0)
      ([] ++ [.call ⟨1, 0⟩] ++ [.call ⟨2, 500000000⟩] ++ [.call ⟨4, 0⟩]) _ :=
    .snoc (.snoc (.snoc .nil ⟨⟨h1, hapart1⟩, rfl⟩) ⟨⟨h2, hapart2⟩, rfl⟩) ⟨⟨h3, hapart3⟩, rfl⟩
  have hclocked : Run (Step Clocked) (start fun _ : Fin 1 => 0) _ _ :=
    run_weaken (fun _ _ h => h.1) hrun
  exact ⟨_, hclocked, rfl, (throttled_iff _ hclocked).2 hrun⟩

/-- Two lines within a tenth of a second. -/
theorem unthrottled_boundary :
    ∃ s : State 1, Run (Step Clocked) (start fun _ => 0)
        [.call ⟨1, 0⟩, .call ⟨2, 900000000⟩, .call ⟨3, 0⟩] s ∧
      s.meter.lines.map Line.now = [⟨3, 0⟩, ⟨2, 900000000⟩] ∧ ¬ Throttled s := by
  have h1 : (⟨1, 0⟩ : Timespec).Valid := by decide
  have h2 : (⟨2, 900000000⟩ : Timespec).Valid := by decide
  have h3 : (⟨3, 0⟩ : Timespec).Valid := by decide
  have hrun : Run (Step Clocked) (start fun _ : Fin 1 => 0)
      ([] ++ [.call ⟨1, 0⟩] ++ [.call ⟨2, 900000000⟩] ++ [.call ⟨3, 0⟩]) _ :=
    .snoc (.snoc (.snoc .nil ⟨h1, rfl⟩) ⟨h2, rfl⟩) ⟨h3, rfl⟩
  refine ⟨_, hrun, rfl, fun h => ?_⟩
  have hclose := List.rel_of_pairwise_cons h.1 List.mem_cons_self
  norm_num [Timespec.value] at hclose

end SyscallAdvent.Throughput
