import Mathlib.Algebra.BigOperators.Fin
import SyscallAdvent.Proofs.ChecksumRange

/-! What the checksum does not notice. It is the sum of the words that begin in
the range, so neither their order nor their place counts, and each of them can be
set such that any value comes out. -/

namespace SyscallAdvent.Checksum

open Bytes CLoop

variable {m m' : Memory} {data len : BitVec 64}

/-- The words from `data` on. -/
def sumWords (m : Memory) (data n : ℕ) : BitVec 64 :=
  ∑ i ∈ Finset.range n, BitVec.ofNat 64 (load m (data + 8 * i) 8)

theorem calcChecksum_unique {fuel fuel' : ℕ} {s s' : Scan}
    (h : calcChecksum m data len fuel = some s) (h' : calcChecksum m data len fuel' = some s') :
    s = s' := by
  obtain ⟨s₁, h₁, h₂⟩ := Option.bind_eq_some_iff.1 h
  obtain ⟨s₁', h₁', h₂'⟩ := Option.bind_eq_some_iff.1 h'
  obtain rfl := whileLoop_unique h₁ h₁'
  exact whileLoop_unique h₂ h₂'

/-- `calc_checksum` returns `c`. -/
def Returns (m : Memory) (data len c : BitVec 64) : Prop :=
  ∃ fuel s, calcChecksum m data len fuel = some s ∧ s.checksum = c

theorem returns_iff (hfit : data.toNat + 8 * ((len.toNat + 7) / 8) < 2 ^ 64) (c : BitVec 64) :
    Returns m data len c ↔ c = sumWords m data.toNat ((len.toNat + 7) / 8) := by
  obtain ⟨s, hrun, hs⟩ := calcChecksum_padded m hfit (Nat.lt_succ_self _)
  constructor
  · rintro ⟨fuel, s', hrun', rfl⟩
    obtain rfl := calcChecksum_unique hrun hrun'
    exact hs.sum
  · rintro rfl
    exact ⟨_, s, hrun, hs.sum⟩

/-- A word that is set is one summand. -/
theorem sumWords_store {data k n : ℕ} (hk : k < n) (w : BitVec 64) :
    sumWords (store m (data + 8 * k) 8 w.toNat) data n =
      w + ∑ i ∈ (Finset.range n).erase k, BitVec.ofNat 64 (load m (data + 8 * i) 8) := by
  have hword : load (store m (data + 8 * k) 8 w.toNat) (data + 8 * k) 8 = w.toNat :=
    load_store m _ (w.isLt.trans_eq (by norm_num))
  have hrest : ∀ i ∈ (Finset.range n).erase k,
      BitVec.ofNat 64 (load (store m (data + 8 * k) 8 w.toNat) (data + 8 * i) 8) =
        BitVec.ofNat 64 (load m (data + 8 * i) 8) := by
    intro i hi
    have hik := Finset.ne_of_mem_erase hi
    rw [load_store_frame m _ (by omega)]
  rw [sumWords, ← Finset.add_sum_erase _ _ (Finset.mem_range.2 hk), hword,
    Finset.sum_congr rfl hrest, BitVec.ofNat_toNat, BitVec.setWidth_eq]

/-- Whatever the rest of the range holds, exactly one value of each of its words
gives a wanted checksum. -/
theorem checksum_forgeable (m : Memory) (data len : BitVec 64)
    (hfit : data.toNat + 8 * ((len.toNat + 7) / 8) < 2 ^ 64) (k : ℕ) (hk : 8 * k < len.toNat)
    (c : BitVec 64) :
    ∃! w : BitVec 64, Returns (store m (data.toNat + 8 * k) 8 w.toNat) data len c := by
  have hk' : k < (len.toNat + 7) / 8 := by omega
  refine ⟨c - ∑ i ∈ (Finset.range ((len.toNat + 7) / 8)).erase k,
    BitVec.ofNat 64 (load m (data.toNat + 8 * i) 8), ?_, fun w hw => ?_⟩
  · simp only [returns_iff hfit, sumWords_store hk']
    exact (sub_add_cancel _ _).symm
  · simp only [returns_iff hfit, sumWords_store hk'] at hw
    exact eq_sub_of_add_eq hw.symm

/-- The last of three words, so that the sum is 7. -/
theorem checksum_forgeable_three :
    ∃ w : BitVec 64,
      Returns (store (fun a => BitVec.ofNat 8 a) (4096 + 8 * 2) 8 w.toNat) 4096 24 7 :=
  (checksum_forgeable (fun a => BitVec.ofNat 8 a) 4096 24 (by decide) 2 (by decide) 7).exists

/-- Ranges of the same words in any order, at any place, have the same checksum. -/
theorem checksum_unordered (m m' : Memory) (data data' len : BitVec 64)
    (hfit : data.toNat + 8 * ((len.toNat + 7) / 8) < 2 ^ 64)
    (hfit' : data'.toNat + 8 * ((len.toNat + 7) / 8) < 2 ^ 64)
    (σ : Equiv.Perm (Fin ((len.toNat + 7) / 8)))
    (hσ : ∀ i : Fin ((len.toNat + 7) / 8),
      load m' (data'.toNat + 8 * i) 8 = load m (data.toNat + 8 * σ i) 8)
    (c : BitVec 64) : Returns m' data' len c ↔ Returns m data len c := by
  have hsum : sumWords m' data'.toNat ((len.toNat + 7) / 8) =
      sumWords m data.toNat ((len.toNat + 7) / 8) := by
    simp only [sumWords, Finset.sum_range, hσ]
    exact Equiv.sum_comp σ fun i => BitVec.ofNat 64 (load m (data.toNat + 8 * i) 8)
  rw [returns_iff hfit, returns_iff hfit', hsum]

/-- Two words that change places. -/
theorem checksum_unordered_two :
    let m : Memory := fun a => if a < 4104 then 1 else 2
    let m' : Memory := fun a => if a < 4104 then 2 else 1
    Returns m' 4096 16 0x0303030303030303 ↔ Returns m 4096 16 0x0303030303030303 := by
  intro m m'
  exact checksum_unordered m m' 4096 4096 16 (by decide) (by decide)
    (Equiv.swap ⟨0, by decide⟩ ⟨1, by decide⟩) (by decide) _

end SyscallAdvent.Checksum
