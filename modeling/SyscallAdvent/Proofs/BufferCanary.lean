import SyscallAdvent.Proofs.BufferStack

/-! Double frees and stale writes. The stack may then be a cycle, may have lost
its tail and may end in garbage, so the invariant follows the links only through
canaries: whatever is reached so is a block, and if it carries the canary as
well, it is free and untouched since. A corrupted buffer is reached, but nothing
behind it. -/

namespace SyscallAdvent.Buffer

open Bytes LinkedList Transition

/-- `b` is in the free stack, as far as canaries lead. -/
def Linked (h : Heap) (b : ℕ) : Prop :=
  Reach (next h.mem) 0 (fun c => canary h.mem c = CANARY) h.freeBuffers b

/-- As `Faulty`, but an owner whose buffer a double free has left in the stack
is a stale writer too. -/
def Detectable (s : State) : Event → Prop
  | .alloc r => s.memalignOk r
  | .free b => b ∈ s.held ∨ b ∈ s.freed
  | .write b data =>
    b ∈ s.held ∧ ¬ Linked s.heap b ∨
      (b ∈ s.held ∨ b ∈ s.freed) ∧ canary (storeRange s.heap.mem b data) b ≠ CANARY

structure Trusted (s : State) : Prop where
  arena : Arena s.heap.blocks
  handed : ∀ b, b ∈ s.held ∨ b ∈ s.freed → b ∈ s.heap.blocks
  dirty : ∀ b ∈ s.dirty, b ∈ s.heap.blocks
  once : s.held.Nodup
  reached : ∀ b, Linked s.heap b → b ∈ s.heap.blocks
  intact : ∀ b, Linked s.heap b → canary s.heap.mem b = CANARY → b ∉ s.held ∧ b ∉ s.dirty

section

variable {s : State} {b : ℕ}

theorem not_linked {h : Heap} (h0 : h.freeBuffers = 0) : ¬ Linked h b := fun hl =>
  Reach.subset (S := fun _ => False) hl (fun hne => hne h0) fun _ hc _ _ => hc

theorem Trusted.head (h : Trusted s) (h0 : s.heap.freeBuffers ≠ 0) :
    Linked s.heap s.heap.freeBuffers ∧ s.heap.freeBuffers ∈ s.heap.blocks :=
  ⟨.head h0, h.reached _ (.head h0)⟩

theorem Trusted.head_lt (h : Trusted s) : s.heap.freeBuffers < 2 ^ 64 := by
  by_cases h0 : s.heap.freeBuffers = 0
  · rw [h0]
    decide
  · have hfit := h.arena.fits _ (h.head h0).2
    have : 0 < bufferSize := by decide
    omega

theorem Trusted.start (mem : Memory) : Trusted (start mem) where
  arena := Arena.nil
  handed := by simp [Buffer.start]
  dirty := by simp [Buffer.start]
  once := List.nodup_nil
  reached := fun _ hl => absurd hl (not_linked rfl)
  intact := fun _ hl => absurd hl (not_linked rfl)

/-- Links and canaries of all linked buffers but `b` unchanged, and `b` no longer
passed: nothing new is reached. -/
theorem Trusted.linked_of_linked (h : Trusted s) (b : ℕ) (heap : Heap)
    (hhead : heap.freeBuffers ≠ 0 → Linked s.heap heap.freeBuffers)
    (hsame : ∀ c ∈ s.heap.blocks, c ≠ b → SameLinks s.heap.mem heap.mem c)
    (hstop : Linked s.heap b → canary heap.mem b ≠ CANARY) {c : ℕ} (hc : Linked heap c) :
    Linked s.heap c := by
  refine Reach.subset hc hhead fun c hc hlive hne => ?_
  have hcb : c ≠ b := by
    intro heq
    subst heq
    exact hstop hc hlive
  obtain ⟨hnext, hcanary⟩ := hsame c (h.reached c hc) hcb
  rw [hnext] at hne ⊢
  exact hc.next (hcanary ▸ hlive) hne

theorem Trusted.alloc_empty (h : Trusted s) {r : Memalign} (h0 : s.heap.freeBuffers = 0)
    (hr : Fresh r s.heap.blocks) :
    (allocBuffer r s.heap).1 = .returned r.ret ∧ r.ret ∉ s.held ∧ r.ret ∉ s.dirty ∧
      Trusted (exec s (.alloc r)) := by
  have halloc := allocBuffer_empty h0 hr.ok.ge
  have hheld : r.ret ∉ s.held := fun hb => hr.not_mem (h.handed _ (Or.inl hb))
  refine ⟨by rw [halloc], hheld, fun hb => hr.not_mem (h.dirty _ hb), ?_⟩
  simp only [exec, halloc, State.afterAlloc]
  exact {
    arena := h.arena.cons hr
    handed := by
      intro b hb
      rcases hb with hb | hb
      · rcases List.mem_cons.1 hb with rfl | hb
        · exact List.mem_cons_self ..
        · exact List.mem_cons_of_mem _ (h.handed b (Or.inl hb))
      · exact List.mem_cons_of_mem _ (h.handed b (Or.inr (List.mem_of_mem_erase hb)))
    dirty := fun b hb => List.mem_cons_of_mem _ (h.dirty b hb)
    once := List.nodup_cons.2 ⟨hheld, h.once⟩
    reached := fun _ hl => absurd hl (not_linked h0)
    intact := fun _ hl => absurd hl (not_linked h0) }

theorem Trusted.alloc_pop (h : Trusted s) (r : Memalign) (h0 : s.heap.freeBuffers ≠ 0)
    (hc : canary s.heap.mem s.heap.freeBuffers = CANARY) : Trusted (exec s (.alloc r)) := by
  obtain ⟨hlinked, hblock⟩ := h.head h0
  have hheld := (h.intact _ hlinked hc).1
  have halloc := allocBuffer_pop r h0 hc
  have hcleared :
      canary (setCanary s.heap.mem s.heap.freeBuffers 0) s.heap.freeBuffers ≠ CANARY := by
    rw [canary_setCanary (by decide)]
    decide
  have hsame : ∀ c ∈ s.heap.blocks, c ≠ s.heap.freeBuffers →
      SameLinks s.heap.mem (setCanary s.heap.mem s.heap.freeBuffers 0) c :=
    fun c hcb hne => setCanary_sameLinks (h.arena.of_ne hblock hcb hne.symm) 0
  have hback := fun c => h.linked_of_linked (c := c) s.heap.freeBuffers
    { s.heap with mem := setCanary s.heap.mem s.heap.freeBuffers 0,
                  freeBuffers := next s.heap.mem s.heap.freeBuffers }
    (fun hne => hlinked.next hc hne) hsame fun _ => hcleared
  simp only [exec, halloc, State.afterAlloc]
  exact {
    arena := h.arena
    handed := by
      intro b hb
      rcases hb with hb | hb
      · rcases List.mem_cons.1 hb with rfl | hb
        · exact hblock
        · exact h.handed b (Or.inl hb)
      · exact h.handed b (Or.inr (List.mem_of_mem_erase hb))
    dirty := h.dirty
    once := List.nodup_cons.2 ⟨hheld, h.once⟩
    reached := fun b hl => h.reached b (hback b hl)
    intact := fun b hl hcb => by
      have hne : b ≠ s.heap.freeBuffers := by
        intro heq
        subst heq
        exact hcleared hcb
      have hold := hback b hl
      have hclean := h.intact b hold ((hsame b (h.reached b hold) hne).2 ▸ hcb)
      exact ⟨List.not_mem_cons_of_ne_of_not_mem hne hclean.1, hclean.2⟩ }

theorem Trusted.free (h : Trusted s) (hb : b ∈ s.held ∨ b ∈ s.freed) :
    Trusted (exec s (.free b)) := by
  have hblock := h.handed b hb
  obtain ⟨-, hlink, hsame⟩ := freeBuffer_links (b := b) h.head_lt
  -- behind the freed buffer comes what was reached before
  have hback : ∀ c, Linked (freeBuffer b s.heap) c → c = b ∨ Linked s.heap c := by
    intro c hc
    refine Reach.subset (S := fun c => c = b ∨ Linked s.heap c) hc (fun _ => Or.inl rfl) ?_
    intro c hc hlive hne
    by_cases hcb : c = b
    · rw [hcb, hlink] at hne ⊢
      exact Or.inr (.head hne)
    · have hc := hc.resolve_left hcb
      obtain ⟨hnext, hcanary⟩ := hsame c (h.arena.of_ne hblock (h.reached c hc) (Ne.symm hcb))
      rw [hnext] at hne ⊢
      exact Or.inr (hc.next (hcanary ▸ hlive) hne)
  exact {
    arena := h.arena
    handed := by
      intro c hc
      rcases hc with hc | hc
      · exact h.handed c (Or.inl (List.mem_of_mem_erase hc))
      · rcases List.mem_cons.1 hc with rfl | hc
        · exact hblock
        · exact h.handed c (Or.inr hc)
    dirty := fun c hc => h.dirty c (List.mem_of_mem_filter hc)
    once := h.once.erase b
    reached := fun c hc => by
      rcases hback c hc with rfl | hc
      · exact hblock
      · exact h.reached c hc
    intact := fun c hc hcanary => by
      by_cases hcb : c = b
      · subst hcb
        exact ⟨h.once.not_mem_erase, by simp [exec]⟩
      · have hold := (hback c hc).resolve_left hcb
        have hsep := h.arena.of_ne hblock (h.reached c hold) (Ne.symm hcb)
        have hclean := h.intact c hold ((hsame c hsep).2 ▸ hcanary)
        exact ⟨fun hm => hclean.1 (List.mem_of_mem_erase hm),
          fun hm => hclean.2 (List.mem_of_mem_filter hm)⟩ }

/-- A write that destroys the canary, or that goes to a buffer out of reach. -/
theorem Trusted.write (h : Trusted s) (hb : b ∈ s.held ∨ b ∈ s.freed)
    {data : Fin bufferSize → BitVec 8}
    (hstop : Linked s.heap b → canary (storeRange s.heap.mem b data) b ≠ CANARY) :
    Trusted (exec s (.write b data)) := by
  have hblock := h.handed b hb
  have hsame : ∀ c ∈ s.heap.blocks, c ≠ b →
      SameLinks s.heap.mem (storeRange s.heap.mem b data) c :=
    fun c hc hne => storeRange_sameLinks (h.arena.of_ne hblock hc hne.symm) data
  have hback := fun c => h.linked_of_linked (c := c) b
    { s.heap with mem := storeRange s.heap.mem b data }
    (fun hne => .head hne) hsame hstop
  exact {
    arena := h.arena
    handed := h.handed
    dirty := List.forall_mem_cons.2 ⟨hblock, h.dirty⟩
    once := h.once
    reached := fun c hc => h.reached c (hback c hc)
    intact := fun c hc hcanary => by
      have hold := hback c hc
      have hne : c ≠ b := by
        intro heq
        subst heq
        exact hstop hold hcanary
      have hclean := h.intact c hold ((hsame c (h.reached c hold) hne).2 ▸ hcanary)
      exact ⟨hclean.1, List.not_mem_cons_of_ne_of_not_mem hne hclean.2⟩ }

end

/-- Once the assertion has failed there are no further steps, and nothing is claimed. -/
theorem run_trusted {mem : Memory} {evs : List Event} {s : State}
    (h : Run (Step Detectable) (start mem) evs s) (hrun : s.running = true) : Trusted s := by
  revert hrun
  refine Run.invariant (P := fun _ s => s.running = true → Trusted s)
    (fun _ => Trusted.start mem) ?_ h
  intro evs s e s' hs hstep hrun'
  obtain ⟨hrun, hpol, rfl⟩ := hstep
  have hs := hs hrun
  cases e with
  | alloc r =>
    by_cases h0 : s.heap.freeBuffers = 0
    · exact (hs.alloc_empty h0 (hpol h0)).2.2.2
    by_cases hc : canary s.heap.mem s.heap.freeBuffers = CANARY
    · exact hs.alloc_pop r h0 hc
    · simp [exec, allocBuffer_corrupt r h0 hc, State.afterAlloc] at hrun'
  | free b => exact hs.free hpol
  | write b data =>
    rcases hpol with ⟨hheld, hnot⟩ | ⟨hb, hcanary⟩
    · exact hs.write (Or.inl hheld) fun hl => absurd hl hnot
    · exact hs.write hb fun _ => hcanary

/-- A call of `alloc_buffer` pops no buffer that is held or overwritten: it
fails the assertion instead. The link that it follows is that of a block. -/
theorem canary_one_owner {mem : Memory} {evs : List Event} {s : State}
    (h : Run (Step Detectable) (start mem) evs s) (hrun : s.running = true) {r : Memalign}
    (hr : s.memalignOk r) :
    (∀ b, (allocBuffer r s.heap).1 = .returned b → b ∉ s.held ∧ b ∉ s.dirty) ∧
      (s.heap.freeBuffers ∈ s.held ∨ s.heap.freeBuffers ∈ s.dirty →
        (allocBuffer r s.heap).1 = .assertion) ∧
      (s.heap.freeBuffers ≠ 0 → s.heap.freeBuffers ∈ s.heap.blocks) := by
  have hs := run_trusted h hrun
  by_cases h0 : s.heap.freeBuffers = 0
  · obtain ⟨hret, hheld, hdirty, -⟩ := hs.alloc_empty h0 (hr h0)
    refine ⟨fun b hb => ?_, fun hm => ?_, fun hne => absurd h0 hne⟩
    · obtain rfl := Outcome.returned.inj (hret.symm.trans hb)
      exact ⟨hheld, hdirty⟩
    · have hblock : s.heap.freeBuffers ∈ s.heap.blocks := by
        rcases hm with hm | hm
        · exact hs.handed _ (Or.inl hm)
        · exact hs.dirty _ hm
      exact absurd h0 (hs.arena.nonnull _ hblock)
  · obtain ⟨hlinked, hblock⟩ := hs.head h0
    by_cases hc : canary s.heap.mem s.heap.freeBuffers = CANARY
    · have hclean := hs.intact _ hlinked hc
      refine ⟨fun b hb => ?_, fun hm => ?_, fun _ => hblock⟩
      · rw [allocBuffer_pop r h0 hc] at hb
        obtain rfl := Outcome.returned.inj hb
        exact hclean
      · exact absurd hm (not_or.2 hclean)
    · rw [allocBuffer_corrupt r h0 hc]
      exact ⟨fun b hb => Outcome.noConfusion hb, fun _ => rfl, fun _ => hblock⟩

theorem Detectable.faulty {s : State} {e : Event} (h : Detectable s e) : Faulty s e := by
  cases e with
  | alloc r => exact h
  | free b => exact h
  | write b data =>
    rcases h with ⟨hheld, -⟩ | ⟨hheld | hfreed, hcanary⟩
    · exact Or.inl hheld
    · exact Or.inl hheld
    · exact Or.inr ⟨hfreed, hcanary⟩

/-- A buffer that was freed twice is handed out. -/
theorem double_free_run :
    ∃ s, Run (Step Detectable) (start fun _ => 0)
        [.alloc ⟨0, 4096⟩, .free 4096, .free 4096, .alloc ⟨0, 4096⟩] s ∧
      s = exec (exec (exec (exec (start fun _ => 0) (.alloc ⟨0, 4096⟩)) (.free 4096)) (.free 4096))
        (.alloc ⟨0, 4096⟩) := by
  have h₁ : Run (Step Detectable) (start fun _ => 0) [.alloc ⟨0, 4096⟩] _ :=
    .single ⟨rfl, fun _ => fresh_first, rfl⟩
  have h₂ := h₁.snoc (e := Event.free 4096) ⟨rfl, Or.inl (List.mem_singleton_self 4096), rfl⟩
  have h₃ := h₂.snoc (e := Event.free 4096) ⟨rfl, Or.inr (List.mem_singleton_self 4096), rfl⟩
  have h₄ := h₃.snoc (e := Event.alloc ⟨0, 4096⟩) ⟨rfl, fun h0 => absurd h0 (by decide), rfl⟩
  exact ⟨_, h₄, rfl⟩

/-- It is then still the head of the stack, and the next call fails the assertion. -/
theorem canary_one_owner_double_free :
    ∃ evs s, Run (Step Detectable) (start fun _ => 0) evs s ∧ s.heap.freeBuffers ∈ s.held ∧
      (allocBuffer ⟨0, 8192⟩ s.heap).1 = .assertion := by
  obtain ⟨s, hrun, hs⟩ := double_free_run
  have hhead : s.heap.freeBuffers ∈ s.held := by
    rw [hs]
    decide +kernel
  refine ⟨_, s, hrun, hhead, (canary_one_owner hrun ?_ fun h0 => ?_).2.1 (Or.inl hhead)⟩
  · rw [hs]
    decide +kernel
  · rw [hs] at h0
    exact absurd h0 (by decide +kernel)

/-- The first bytes of a file that look like a free buffer. -/
def forged : Fin bufferSize → BitVec 8 := fun i =>
  match i.val with
  | 8 => 0xef
  | 9 => 0xbe
  | 10 => 0xad
  | 11 => 0xde
  | _ => 0

/-- If the owner happens to store the canary into the buffer that was freed
twice, it gets a second owner. -/
theorem canary_forged :
    ¬ ∀ (mem : Memory) (evs : List Event) (s : State), Run (Step Faulty) (start mem) evs s →
      s.running = true → ∀ r, s.memalignOk r →
      ∀ b, (allocBuffer r s.heap).1 = .returned b → b ∉ s.held := by
  intro h
  obtain ⟨s, hrun, hs⟩ := double_free_run
  have hrun' : Run (Step Faulty) (start fun _ => 0) _ s :=
    hrun.mono fun _ _ _ hstep => ⟨hstep.1, hstep.2.1.faulty, hstep.2.2⟩
  subst hs
  have hwrite := hrun'.snoc (e := Event.write 4096 forged)
    ⟨by decide +kernel, Or.inl (by decide +kernel), rfl⟩
  exact h _ _ _ hwrite (by decide +kernel) ⟨0, 8192⟩
    (fun h0 => absurd h0 (by decide +kernel)) 4096 (by decide +kernel) (by decide +kernel)

end SyscallAdvent.Buffer
