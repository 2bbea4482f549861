import SyscallAdvent.Proofs.BufferStack

/-! Memory exhaustion. `posix_memalign` reports a failure by a positive number,
which the test in `alloc_buffer` takes for success, so the caller gets what was
in `ret` before. As long as no call fails, the free stack stays intact. -/

namespace SyscallAdvent.Buffer

open Bytes LinkedList Transition

variable {s : State} {e : Event}

theorem obtained_eq_blocks {h : Heap} (hok : h.NeverFailed) : h.obtained = h.blocks := by
  rw [Heap.obtained, Heap.blocks, List.filter_eq_self.2 fun r hr => decide_eq_true (hok r hr)]

theorem obtained_failed {r : Memalign} {h : Heap} (hr : 0 < r.rc) :
    { h with memaligns := r :: h.memaligns }.obtained = h.obtained := by
  rw [Heap.obtained, Heap.obtained, List.filter_cons_of_neg (by simpa using hr.ne')]

/-- Only with an empty free stack `posix_memalign` is called. -/
theorem memaligns_pop (r : Memalign) (h0 : s.heap.freeBuffers ≠ 0) :
    (exec s (.alloc r)).heap.memaligns = s.heap.memaligns := by
  by_cases hc : canary s.heap.mem s.heap.freeBuffers = CANARY
  · simp only [exec, allocBuffer_pop r h0 hc, State.afterAlloc]
  · simp only [exec, allocBuffer_corrupt r h0 hc, State.afterAlloc]

/-- Calls of `posix_memalign` are only ever added. -/
theorem memaligns_suffix (s : State) (e : Event) :
    s.heap.memaligns <:+ (exec s e).heap.memaligns := by
  cases e with
  | alloc r =>
    by_cases h0 : s.heap.freeBuffers = 0
    · by_cases hr : r.rc < 0
      · simp [exec, allocBuffer, h0, hr, State.afterAlloc]
      · simp [exec, allocBuffer, h0, hr, State.afterAlloc]
    · rw [memaligns_pop r h0]
  | free b => exact List.suffix_refl _
  | write b data => exact List.suffix_refl _

theorem neverFailed_of_exec (h : (exec s e).heap.NeverFailed) : s.heap.NeverFailed :=
  fun r hr => h r ((memaligns_suffix s e).subset hr)

/-- With all buffers held, a failure is taken for a success. -/
theorem not_survives_failed (hs : Recycling s) (hok : s.heap.NeverFailed) {r : Memalign}
    (h0 : s.heap.freeBuffers = 0) (hr : 0 < r.rc) : ¬ Survives s (.alloc r) := by
  intro hsurvives
  have hfreed : s.freed = [] := hs.chain.unique (show Chain _ 0 _ [] from h0)
  simp only [Survives, allocBuffer_empty h0 hr.le, obtained_failed hr, obtained_eq_blocks hok,
    hs.mem_blocks, hfreed, List.not_mem_nil, or_false] at hsurvives
  exact hsurvives.2 hsurvives.1

/-- A call that gets a block if it asks for one. -/
theorem survives_alloc (hs : Recycling s) (hok : s.heap.NeverFailed) {r : Memalign}
    (hr : s.memalignOk r) : Survives s (.alloc r) ∧ (exec s (.alloc r)).heap.NeverFailed ∧
      Recycling (exec s (.alloc r)) := by
  by_cases h0 : s.heap.freeBuffers = 0
  · have hrc := (hr h0).ok
    have halloc := allocBuffer_empty h0 hrc.ge
    obtain ⟨-, hheld, hs'⟩ := hs.alloc_empty h0 (hr h0)
    have hok' : Heap.NeverFailed { s.heap with memaligns := r :: s.heap.memaligns } :=
      List.forall_mem_cons.2 ⟨hrc, hok⟩
    refine ⟨?_, by rw [exec, halloc]; exact hok', hs'⟩
    simp only [Survives, halloc, obtained_eq_blocks hok']
    exact ⟨List.mem_cons_self, hheld⟩
  · obtain ⟨-, hheld, hs'⟩ := hs.alloc_pop r h0
    have hfreed := hs.head_mem h0
    have halloc := allocBuffer_pop r h0 (hs.canaries _ hfreed)
    refine ⟨?_, by rw [exec, halloc]; exact hok, hs'⟩
    have hblock := hs.mem_blocks.2 (Or.inr hfreed)
    rw [← obtained_eq_blocks hok] at hblock
    simp only [Survives, halloc]
    exact ⟨hblock, hheld⟩

theorem neverFailed_alloc_iff (hs : Recycling s) (hok : s.heap.NeverFailed) {r : Memalign}
    (hpol : Exhaustible s (.alloc r)) :
    (exec s (.alloc r)).heap.NeverFailed ↔ s.memalignOk r := by
  constructor
  · intro hnever h0
    rcases hpol h0 with hfresh | hrc
    · rwa [← obtained_eq_blocks hok]
    · rw [exec, allocBuffer_empty h0 hrc.le] at hnever
      exact absurd (hnever r List.mem_cons_self) hrc.ne'
  · intro hr
    exact (survives_alloc hs hok hr).2.1

/-- A step is survived exactly if no call of `posix_memalign` fails in it. -/
theorem survives_step_iff (hs : Recycling s) (hok : s.heap.NeverFailed) (hpol : Exhaustible s e) :
    Survives s e ↔ (exec s e).heap.NeverFailed := by
  cases e with
  | alloc r =>
    rw [neverFailed_alloc_iff hs hok hpol]
    constructor
    · intro hsurvives h0
      rcases hpol h0 with hfresh | hrc
      · rwa [← obtained_eq_blocks hok]
      · exact absurd hsurvives (not_survives_failed hs hok h0 hrc)
    · intro hr
      exact (survives_alloc hs hok hr).1
  | free b => exact iff_of_true trivial hok
  | write b data => exact iff_of_true trivial hok

theorem recycling_step (hs : Recycling s) (hok : (exec s e).heap.NeverFailed)
    (hpol : Exhaustible s e) : Recycling (exec s e) := by
  have hbefore := neverFailed_of_exec hok
  cases e with
  | alloc r =>
    exact (survives_alloc hs hbefore ((neverFailed_alloc_iff hs hbefore hpol).1 hok)).2.2
  | free b => exact hs.free hpol
  | write b data => exact hs.write hpol data

/-- All calls of a run survive exactly if no call of `posix_memalign` failed. -/
theorem survives_exhaustion_iff {mem : Memory} {evs : List Event} {s : State}
    (h : Run (Step Exhaustible) (start mem) evs s) :
    Run (Step fun s e => Exhaustible s e ∧ Survives s e) (start mem) evs s ↔
      s.heap.NeverFailed := by
  constructor
  · intro hsurvives
    refine (Run.invariant (P := fun _ s => Recycling s ∧ s.heap.NeverFailed)
      ⟨Recycling.start mem, fun _ h => nomatch h⟩ ?_ hsurvives).2
    intro evs s e s' ih hstep
    obtain ⟨-, ⟨hpol, hsurvives⟩, rfl⟩ := hstep
    have hok := (survives_step_iff ih.1 ih.2 hpol).1 hsurvives
    exact ⟨recycling_step ih.1 hok hpol, hok⟩
  · intro hok
    have hboth : Run (Step fun s e => Exhaustible s e ∧ Survives s e) (start mem) evs s ∧
        Recycling s := by
      induction h with
      | nil => exact ⟨.nil, Recycling.start mem⟩
      | snoc hrun hstep ih =>
        obtain ⟨hrunning, hpol, rfl⟩ := hstep
        have hbefore := neverFailed_of_exec hok
        obtain ⟨hrun, hs⟩ := ih hbefore
        have hsurvives := (survives_step_iff hs hbefore hpol).2 hok
        exact ⟨hrun.snoc ⟨hrunning, ⟨hpol, hsurvives⟩, rfl⟩, recycling_step hs hok hpol⟩
    exact hboth.1

/-- The second call pops the buffer, so that it does not matter whether there is
memory left. -/
theorem survives_exhaustion_pop :
    ∃ s, Run (Step fun s e => Exhaustible s e ∧ Survives s e) (start fun _ => 0)
      [.alloc ⟨0, 4096⟩, .free 4096, .alloc ⟨12, 0⟩] s := by
  have h₁ : Run (Step Exhaustible) (start fun _ => 0) [.alloc ⟨0, 4096⟩] _ :=
    .single ⟨rfl, fun _ => Or.inl fresh_first, rfl⟩
  have h₂ := h₁.snoc (e := Event.free 4096) ⟨rfl, List.mem_singleton_self 4096, rfl⟩
  have h₃ := h₂.snoc (e := Event.alloc ⟨12, 0⟩) ⟨rfl, fun h0 => absurd h0 (by decide), rfl⟩
  refine ⟨_, (survives_exhaustion_iff h₃).2 ?_⟩
  rw [Heap.NeverFailed, memaligns_pop _ (by decide)]
  exact List.forall_mem_singleton.2 rfl

/-- `ENOMEM`: the caller gets what happened to be in `ret`. -/
theorem survives_not_enomem :
    (∃ s, Run (Step Exhaustible) (start fun _ => 0) [.alloc ⟨12, 7⟩] s) ∧
      (allocBuffer ⟨12, 7⟩ (start fun _ => 0).heap).1 = .returned 7 ∧
      ¬ Survives (start fun _ => 0) (.alloc ⟨12, 7⟩) :=
  ⟨⟨_, .single ⟨rfl, fun _ => Or.inr (by decide), rfl⟩⟩, rfl,
    not_survives_failed (Recycling.start _) (fun _ h => nomatch h) rfl (by decide)⟩

end SyscallAdvent.Buffer
