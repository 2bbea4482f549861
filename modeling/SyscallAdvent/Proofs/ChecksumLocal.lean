import SyscallAdvent.Proofs.ChecksumRange

/-! Two runs of `calc_checksum`. Every byte of the range is read as part of
exactly one word, so a change inside one word changes one summand, and the sums
differ whatever the carries do. -/

namespace SyscallAdvent.Checksum

open Bytes CLoop

variable {m m' : Memory}

theorem ofNat_load_inj {a : ℕ}
    (h : BitVec.ofNat 64 (load m a 8) = BitVec.ofNat 64 (load m' a 8)) :
    ∀ x, a ≤ x → x < a + 8 → m x = m' x := by
  have hlt : ∀ m, load m a 8 < 2 ^ 64 := fun m => (load_lt m a 8).trans_eq (by norm_num)
  have hnat := congrArg BitVec.toNat h
  rw [BitVec.toNat_ofNat, BitVec.toNat_ofNat, Nat.mod_eq_of_lt (hlt m),
    Nat.mod_eq_of_lt (hlt m')] at hnat
  exact load_inj hnat

/-- A byte of the rest lies in the word that begins behind the full ones. -/
theorem LocallyModified.word {data len : ℕ} (h : LocallyModified m m' data len) :
    m ≠ m' ∧ ∃ k < (len + 7) / 8,
      ∀ a, ¬ (data + 8 * k ≤ a ∧ a < data + 8 * k + 8) → m a = m' a := by
  obtain ⟨hne, ⟨k, hk, hout⟩ | ⟨i, hi, hout⟩⟩ := h
  · exact ⟨hne, k, by omega, fun a ha => hout a (by omega)⟩
  · exact ⟨hne, len / 8, by omega, fun a ha => hout a (by omega)⟩

theorem sum_words_ne {data k n : ℕ} (hk : k < n) (hne : m ≠ m')
    (hout : ∀ a, ¬ (data + 8 * k ≤ a ∧ a < data + 8 * k + 8) → m a = m' a) :
    ∑ i ∈ Finset.range n, BitVec.ofNat 64 (load m (data + 8 * i) 8) ≠
      ∑ i ∈ Finset.range n, BitVec.ofNat 64 (load m' (data + 8 * i) 8) := by
  have hrest : ∀ i ∈ (Finset.range n).erase k, BitVec.ofNat 64 (load m (data + 8 * i) 8) =
      BitVec.ofNat 64 (load m' (data + 8 * i) 8) := by
    intro i hi
    have hik := Finset.ne_of_mem_erase hi
    rw [load_congr fun x _ _ => hout x (by omega)]
  have hmem := Finset.mem_range.2 hk
  rw [← Finset.add_sum_erase _ _ hmem, ← Finset.add_sum_erase _ _ hmem,
    Finset.sum_congr rfl hrest]
  intro heq
  -- the word would be the same, and then everything
  have hword := ofNat_load_inj (add_right_cancel heq)
  refine hne (funext fun a => ?_)
  by_cases ha : data + 8 * k ≤ a ∧ a < data + 8 * k + 8
  · exact hword a ha.1 ha.2
  · exact hout a ha

/-- A local modification always changes the checksum. -/
theorem checksum_notices (m m' : Memory) (data len : BitVec 64)
    (hfit : data.toNat + 8 * ((len.toNat + 7) / 8) < 2 ^ 64)
    (hlocal : LocallyModified m m' data.toNat len.toNat) :
    ∃ fuel s s', calcChecksum m data len fuel = some s ∧
      calcChecksum m' data len fuel = some s' ∧ s.checksum ≠ s'.checksum := by
  obtain ⟨s, hrun, hs⟩ := calcChecksum_padded m hfit (Nat.lt_succ_self _)
  obtain ⟨s', hrun', hs'⟩ := calcChecksum_padded m' hfit (Nat.lt_succ_self _)
  obtain ⟨hne, k, hk, hout⟩ := hlocal.word
  refine ⟨_, s, s', hrun, hrun', ?_⟩
  rw [hs.sum, hs'.sum]
  exact sum_words_ne hk hne hout

/-- The last of nine bytes, in a word of its own. -/
theorem checksum_notices_ninth :
    let m : Memory := fun _ => 0
    ∃ fuel s s', calcChecksum m 4096 9 fuel = some s ∧
      calcChecksum (Function.update m 4104 1) 4096 9 fuel = some s' ∧ s.checksum ≠ s'.checksum := by
  intro m
  refine checksum_notices m _ 4096 9 (by decide)
    ⟨fun heq => ?_, Or.inr ⟨0, by decide, fun a ha => ?_⟩⟩
  · have := congrFun heq 4104
    simp [m] at this
  · exact (Function.update_of_ne ha _ _).symm

end SyscallAdvent.Checksum
