import SyscallAdvent.Lib.Transition
import SyscallAdvent.Proofs.BufferHeap

/-! Callers that only touch what they hold. The free stack is then a chain
through exactly the buffers that are free, every block is held or free, and a
new block is only obtained when all others are held. -/

namespace SyscallAdvent.Buffer

open Bytes LinkedList Transition

structure Recycling (s : State) : Prop where
  running : s.running = true
  arena : Arena s.heap.blocks
  chain : Chain (next s.heap.mem) 0 s.heap.freeBuffers s.freed
  canaries : ∀ b ∈ s.freed, canary s.heap.mem b = CANARY
  split : (s.held ++ s.freed).Perm s.heap.blocks
  peak : s.peak = s.heap.memaligns.length

section

variable {s : State} {b : ℕ}

theorem Recycling.mem_blocks (h : Recycling s) :
    b ∈ s.heap.blocks ↔ b ∈ s.held ∨ b ∈ s.freed := by
  rw [← h.split.mem_iff, List.mem_append]

theorem Recycling.separate (h : Recycling s) {c : ℕ} (hb : b ∈ s.held) (hc : c ∈ s.freed) :
    Separate b c := by
  have hdisj := List.disjoint_of_nodup_append (h.split.nodup_iff.2 h.arena.nodup)
  refine h.arena.of_ne (h.mem_blocks.2 (Or.inl hb)) (h.mem_blocks.2 (Or.inr hc)) ?_
  intro heq
  subst heq
  exact hdisj hb hc

theorem Recycling.length (h : Recycling s) :
    s.held.length + s.freed.length = s.heap.memaligns.length := by
  rw [← List.length_append, h.split.length_eq, Heap.blocks, List.length_map]

theorem Recycling.head_lt (h : Recycling s) : s.heap.freeBuffers < 2 ^ 64 := by
  cases hl : s.freed with
  | nil =>
    have hc := hl ▸ h.chain
    rw [show s.heap.freeBuffers = 0 from hc]
    decide
  | cons b l =>
    have hc := hl ▸ h.chain
    have hfit := h.arena.fits b (h.mem_blocks.2 (Or.inr (by simp [hl])))
    have : 0 < bufferSize := by decide
    rw [hc.1]
    omega

theorem Recycling.head_mem (h : Recycling s) (h0 : s.heap.freeBuffers ≠ 0) :
    s.heap.freeBuffers ∈ s.freed := by
  cases hl : s.freed with
  | nil =>
    have hc := hl ▸ h.chain
    exact absurd hc h0
  | cons b l =>
    have hc := hl ▸ h.chain
    rw [hc.1]
    exact List.mem_cons_self

theorem Recycling.start (mem : Memory) : Recycling (start mem) where
  running := rfl
  arena := Arena.nil
  chain := rfl
  canaries := by simp [Buffer.start]
  split := .refl _
  peak := rfl

/-- An empty stack: the new block is the one block more than there ever were held. -/
theorem Recycling.alloc_empty (h : Recycling s) {r : Memalign} (h0 : s.heap.freeBuffers = 0)
    (hr : Fresh r s.heap.blocks) :
    (allocBuffer r s.heap).1 = .returned r.ret ∧ r.ret ∉ s.held ∧ Recycling (exec s (.alloc r)) := by
  have hfreed : s.freed = [] := h.chain.unique (show Chain _ 0 _ [] from h0)
  have hlen := h.length
  have hsplit := h.split
  rw [hfreed, List.append_nil] at hsplit
  rw [hfreed, List.length_nil, Nat.add_zero] at hlen
  have halloc := allocBuffer_empty h0 hr.ok.ge
  refine ⟨by rw [halloc], fun hb => hr.not_mem (h.mem_blocks.2 (Or.inl hb)), ?_⟩
  have hexec : exec s (.alloc r) = { s with
      heap := { s.heap with memaligns := r :: s.heap.memaligns }, held := r.ret :: s.held,
      freed := [], peak := max s.peak (s.held.length + 1) } := by
    simp [exec, halloc, State.afterAlloc, hfreed]
  rw [hexec]
  exact {
    running := h.running
    arena := h.arena.cons hr
    chain := h0
    canaries := by simp
    split := by simpa [Heap.blocks] using hsplit
    peak := by simp [h.peak, hlen] }

/-- The head of the stack is popped, with an intact canary. -/
theorem Recycling.alloc_pop (h : Recycling s) (r : Memalign) (h0 : s.heap.freeBuffers ≠ 0) :
    (allocBuffer r s.heap).1 = .returned s.heap.freeBuffers ∧ s.heap.freeBuffers ∉ s.held ∧
      Recycling (exec s (.alloc r)) := by
  cases hl : s.freed with
  | nil =>
    have hc := hl ▸ h.chain
    exact absurd hc h0
  | cons b l =>
    have hc := hl ▸ h.chain
    obtain ⟨hb, -, ht⟩ := hc
    have hnodup : (b :: l).Nodup := hl ▸ h.chain.nodup
    have hbmem : b ∈ s.freed := by simp [hl]
    have hbheld : b ∉ s.held := fun hheld => (h.separate hheld hbmem).ne rfl
    have hsame : ∀ c ∈ l, SameLinks s.heap.mem (setCanary s.heap.mem b 0) c := by
      intro c hcl
      have hcmem : c ∈ s.freed := by simp [hl, hcl]
      refine setCanary_sameLinks (h.arena.of_ne (h.mem_blocks.2 (Or.inr hbmem))
        (h.mem_blocks.2 (Or.inr hcmem)) ?_) 0
      rintro rfl
      exact (List.nodup_cons.1 hnodup).1 hcl
    have hlen := h.length
    rw [hl, List.length_cons] at hlen
    have halloc := allocBuffer_pop r h0 (hb ▸ h.canaries b hbmem)
    rw [hb] at halloc ⊢
    refine ⟨by rw [halloc], hbheld, ?_⟩
    have hexec : exec s (.alloc r) = { s with
        heap := { s.heap with mem := setCanary s.heap.mem b 0, freeBuffers := next s.heap.mem b },
        held := b :: s.held, freed := l, peak := max s.peak (s.held.length + 1) } := by
      simp [exec, halloc, State.afterAlloc, hl]
    rw [hexec]
    exact {
      running := h.running
      arena := h.arena
      chain := ht.congr fun c hcl => (hsame c hcl).1
      canaries := fun c hcl => (hsame c hcl).2.trans (h.canaries c (by simp [hl, hcl]))
      split := by
        have hsplit := h.split
        rw [hl] at hsplit
        exact List.perm_middle.symm.trans hsplit
      peak := by
        have := h.peak
        simp only
        omega }

theorem Recycling.free (h : Recycling s) (hb : b ∈ s.held) : Recycling (exec s (.free b)) := by
  obtain ⟨hcanary, hlink, hsame⟩ := freeBuffer_links (b := b) h.head_lt
  have hne := h.arena.nonnull b (h.mem_blocks.2 (Or.inl hb))
  exact {
    running := h.running
    arena := h.arena
    chain := h.chain.push hne hlink fun c hc => (hsame c (h.separate hb hc)).1
    canaries := List.forall_mem_cons.2
      ⟨hcanary, fun c hc => (hsame c (h.separate hb hc)).2.trans (h.canaries c hc)⟩
    split := by
      refine List.perm_middle.trans (List.Perm.trans ?_ h.split)
      exact (List.perm_cons_erase hb).symm.append_right s.freed
    peak := h.peak }

theorem Recycling.write (h : Recycling s) (hb : b ∈ s.held) (data : Fin bufferSize → BitVec 8) :
    Recycling (exec s (.write b data)) where
  running := h.running
  arena := h.arena
  chain := h.chain.congr fun _ hc => (storeRange_sameLinks (h.separate hb hc) data).1
  canaries := fun c hc =>
    (storeRange_sameLinks (h.separate hb hc) data).2.trans (h.canaries c hc)
  split := h.split
  peak := h.peak

/-- The next call of `alloc_buffer` returns a buffer that nobody holds. -/
theorem Recycling.alloc (h : Recycling s) {r : Memalign} (hr : s.memalignOk r) :
    ∃ b, (allocBuffer r s.heap).1 = .returned b ∧ b ∉ s.held ∧ Recycling (exec s (.alloc r)) := by
  by_cases h0 : s.heap.freeBuffers = 0
  · exact ⟨_, h.alloc_empty h0 (hr h0)⟩
  · exact ⟨_, h.alloc_pop r h0⟩

end

theorem run_recycling {mem : Memory} {evs : List Event} {s : State}
    (h : Run (Step Owned) (start mem) evs s) : Recycling s := by
  refine Run.invariant (P := fun _ s => Recycling s) (Recycling.start mem) ?_ h
  intro evs s e s' hs hstep
  obtain ⟨-, hpol, rfl⟩ := hstep
  cases e with
  | alloc r =>
    obtain ⟨b, -, -, hs'⟩ := hs.alloc hpol
    exact hs'
  | free b => exact hs.free hpol
  | write b data => exact hs.write hpol data

/-- Whatever the owners write: the free stack is acyclic and holds exactly the
buffers freed and not returned since, in order and with their canaries; nothing
is lost; no more blocks were obtained than were held at one time; and the next
allocation succeeds with a buffer that is not held. -/
theorem recycling_stack {mem : Memory} {evs : List Event} {s : State}
    (h : Run (Step Owned) (start mem) evs s) :
    Chain (next s.heap.mem) 0 s.heap.freeBuffers s.freed ∧ s.freed.Nodup ∧
      (∀ b ∈ s.freed, canary s.heap.mem b = CANARY) ∧
      (s.held ++ s.freed).Perm s.heap.blocks ∧
      s.heap.memaligns.length = s.peak ∧ s.running = true ∧
      ∀ r, s.memalignOk r → ∃ b, (allocBuffer r s.heap).1 = .returned b ∧ b ∉ s.held := by
  have hs := run_recycling h
  refine ⟨hs.chain, hs.chain.nodup, hs.canaries, hs.split, hs.peak.symm, hs.running, ?_⟩
  intro r hr
  obtain ⟨b, hret, hheld, -⟩ := hs.alloc hr
  exact ⟨b, hret, hheld⟩

theorem fresh_first : Fresh ⟨0, 4096⟩ [] :=
  ⟨rfl, by decide, by decide, by decide, by simp⟩

theorem fresh_second : Fresh ⟨0, 8192⟩ [4096] :=
  ⟨rfl, by decide, by decide, by decide, by simp [Separate, bufferSize]⟩

/-- Two buffers are obtained, one of them is overwritten as a whole, both are
freed, and the one freed last is returned again. -/
theorem recycling_stack_two :
    ∃ s, Run (Step Owned) (start fun _ => 0)
        [.alloc ⟨0, 4096⟩, .alloc ⟨0, 8192⟩, .write 4096 fun _ => 255, .free 4096, .free 8192,
          .alloc ⟨12, 0⟩] s ∧
      s.held = [8192] ∧ Chain (next s.heap.mem) 0 s.heap.freeBuffers [4096] ∧
      s.heap.memaligns.length = 2 := by
  have h₁ : Run (Step Owned) (start fun _ => 0) [.alloc ⟨0, 4096⟩] _ :=
    .single ⟨rfl, fun _ => fresh_first, rfl⟩
  have h₂ := h₁.snoc (e := Event.alloc ⟨0, 8192⟩) ⟨rfl, fun _ => fresh_second, rfl⟩
  have h₃ := h₂.snoc (e := Event.write 4096 fun _ => 255)
    ⟨rfl, (by decide : 4096 ∈ [8192, 4096]), rfl⟩
  have h₄ := h₃.snoc (e := Event.free 4096) ⟨rfl, (by decide : 4096 ∈ [8192, 4096]), rfl⟩
  have h₅ := h₄.snoc (e := Event.free 8192) ⟨rfl, (by decide : 8192 ∈ [8192]), rfl⟩
  obtain ⟨-, -, hcanaries, -⟩ := recycling_stack h₅
  have halloc := allocBuffer_pop ⟨12, 0⟩ (by decide) (hcanaries 8192 (by decide))
  have h₆ := h₅.snoc (e := Event.alloc ⟨12, 0⟩)
    ⟨rfl, fun h => absurd h (by decide), congrArg (State.afterAlloc _) halloc⟩
  obtain ⟨hchain₆, -, -, -, -, -, -⟩ := recycling_stack h₆
  exact ⟨_, h₆, rfl, hchain₆, rfl⟩

end SyscallAdvent.Buffer
