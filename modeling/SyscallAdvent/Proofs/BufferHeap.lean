import SyscallAdvent.Lib.Chain
import SyscallAdvent.Spec.Buffer

/-! What the two functions do to links and canaries: one description for each of
them, and for all buffers but the one at hand that nothing changes. -/

namespace SyscallAdvent.Buffer

open Bytes

variable {m : Memory} {b c : ℕ}

theorem canary_setCanary {v : ℕ} (hv : v < 2 ^ 32) : canary (setCanary m b v) b = v :=
  load_store m (b + 8) (n := 4) hv

theorem next_setNext {p : ℕ} (hp : p < 2 ^ 64) : next (setNext m b p) b = p :=
  load_store m b (n := 8) hp

theorem canary_setNext (p : ℕ) : canary (setNext m b p) b = canary m b :=
  load_store_frame m p (Or.inr (Nat.le_refl _))

instance : Std.Symm Separate := ⟨fun _ _ => Or.symm⟩

theorem Separate.ne (h : Separate b c) : b ≠ c := by
  intro heq
  subst heq
  simp [Separate, bufferSize] at h

/-- `c` has the same link and canary in both memories. -/
def SameLinks (m m' : Memory) (c : ℕ) : Prop := next m' c = next m c ∧ canary m' c = canary m c

theorem SameLinks.trans {m' m'' : Memory} (h : SameLinks m m' c) (h' : SameLinks m' m'' c) :
    SameLinks m m'' c :=
  ⟨h'.1.trans h.1, h'.2.trans h.2⟩

theorem setCanary_sameLinks (h : Separate b c) (v : ℕ) : SameLinks m (setCanary m b v) c := by
  unfold Separate bufferSize at h
  exact ⟨load_store_frame m v (by omega), load_store_frame m v (by omega)⟩

theorem setNext_sameLinks (h : Separate b c) (p : ℕ) : SameLinks m (setNext m b p) c := by
  unfold Separate bufferSize at h
  exact ⟨load_store_frame m p (by omega), load_store_frame m p (by omega)⟩

theorem storeRange_sameLinks (h : Separate b c) (data : Fin bufferSize → BitVec 8) :
    SameLinks m (storeRange m b data) c := by
  unfold Separate at h
  have : 12 ≤ bufferSize := by decide
  exact ⟨load_storeRange_frame m data (by omega), load_storeRange_frame m data (by omega)⟩

/-- A freed buffer is the new head, carries the canary and links to the old head. -/
theorem freeBuffer_links {h : Heap} (hp : h.freeBuffers < 2 ^ 64) :
    canary (freeBuffer b h).mem b = CANARY ∧ next (freeBuffer b h).mem b = h.freeBuffers ∧
      ∀ c, Separate b c → SameLinks h.mem (freeBuffer b h).mem c := by
  refine ⟨?_, next_setNext hp, fun c hc => ?_⟩
  · exact (canary_setNext _).trans (canary_setCanary (by decide))
  · exact (setCanary_sameLinks hc _).trans (setNext_sameLinks hc _)

/-- The test lets every result pass that is not negative. -/
theorem allocBuffer_empty {r : Memalign} {h : Heap} (h0 : h.freeBuffers = 0) (hr : 0 ≤ r.rc) :
    allocBuffer r h = (.returned r.ret, { h with memaligns := r :: h.memaligns }) := by
  simp [allocBuffer, h0, hr]

theorem allocBuffer_corrupt (r : Memalign) {h : Heap} (h0 : h.freeBuffers ≠ 0)
    (hc : canary h.mem h.freeBuffers ≠ CANARY) :
    allocBuffer r h = (.assertion, { h with freeBuffers := next h.mem h.freeBuffers }) := by
  simp [allocBuffer, h0, hc]

theorem allocBuffer_pop (r : Memalign) {h : Heap} (h0 : h.freeBuffers ≠ 0)
    (hc : canary h.mem h.freeBuffers = CANARY) :
    allocBuffer r h = (.returned h.freeBuffers,
      { h with mem := setCanary h.mem h.freeBuffers 0,
               freeBuffers := next h.mem h.freeBuffers }) := by
  simp [allocBuffer, h0, hc]

/-- Blocks that all exist side by side. -/
structure Arena (blocks : List ℕ) : Prop where
  nonnull : ∀ b ∈ blocks, b ≠ 0
  fits : ∀ b ∈ blocks, b + bufferSize ≤ 2 ^ 64
  separate : blocks.Pairwise Separate

theorem Arena.nil : Arena [] := ⟨by simp, by simp, .nil⟩

theorem Arena.cons {r : Memalign} {blocks : List ℕ} (ha : Arena blocks) (hr : Fresh r blocks) :
    Arena (r.ret :: blocks) where
  nonnull := List.forall_mem_cons.2 ⟨hr.nonnull, ha.nonnull⟩
  fits := List.forall_mem_cons.2 ⟨hr.fits, ha.fits⟩
  separate := List.pairwise_cons.2 ⟨hr.separate, ha.separate⟩

theorem Arena.of_ne {blocks : List ℕ} (ha : Arena blocks) (hb : b ∈ blocks) (hc : c ∈ blocks)
    (hne : b ≠ c) : Separate b c :=
  ha.separate.forall hb hc hne

theorem Arena.nodup {blocks : List ℕ} (ha : Arena blocks) : blocks.Nodup :=
  ha.separate.imp Separate.ne

theorem Fresh.not_mem {r : Memalign} {blocks : List ℕ} (hr : Fresh r blocks) :
    r.ret ∉ blocks := fun hb => (hr.separate _ hb).ne rfl

end SyscallAdvent.Buffer
