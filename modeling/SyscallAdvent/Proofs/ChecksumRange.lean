import Mathlib.Algebra.BigOperators.Intervals
import Mathlib.Tactic
import SyscallAdvent.Spec.Checksum

/-! `calc_checksum` on a range of whole words, and on any other. The first loop
only stops behind the range, so with bytes left over its last word reaches
beyond the end; the second loop is never entered. -/

namespace SyscallAdvent.Checksum

open Bytes CLoop

variable {m m' : Memory} {data len : BitVec 64}

theorem toNat_end (hfit : data.toNat + len.toNat < 2 ^ 64) :
    (data + len).toNat = data.toNat + len.toNat :=
  BitVec.toNat_add_of_lt hfit

theorem addWord_ptr (m : Memory) {s : Scan} (h : s.ptr.toNat + 8 < 2 ^ 64) :
    (addWord m s).ptr.toNat = s.ptr.toNat + 8 :=
  BitVec.toNat_add_of_lt h

theorem mem_addWord_log {s : Scan} {a : ℕ} :
    a ∈ (addWord m s).log ↔ s.ptr.toNat ≤ a ∧ a < s.ptr.toNat + 8 ∨ a ∈ s.log := by
  simp only [addWord, List.mem_append, List.mem_map, List.mem_range]
  apply or_congr_left
  constructor
  · intro h
    obtain ⟨i, hi, rfl⟩ := h
    omega
  · intro h
    exact ⟨a - s.ptr.toNat, by omega, by omega⟩

/-- `k` words have been added. -/
structure Words (m : Memory) (data len : BitVec 64) (k : ℕ) (s : Scan) : Prop where
  ptr : s.ptr.toNat = data.toNat + 8 * k
  sum : s.checksum = ∑ i ∈ Finset.range k, BitVec.ofNat 64 (load m (data.toNat + 8 * i) 8)
  range : ∀ a ∈ s.log, data.toNat ≤ a ∧ a < data.toNat + len.toNat

theorem Words.addWord {k : ℕ} {s : Scan} (h : Words m data len k s)
    (hfit : data.toNat + len.toNat < 2 ^ 64) (hk : 8 * (k + 1) ≤ len.toNat) :
    Words m data len (k + 1) (addWord m s) where
  ptr := by
    have hptr := h.ptr
    rw [addWord_ptr m (by omega)]
    omega
  sum := by
    rw [Checksum.addWord, h.sum, h.ptr, Finset.sum_range_succ]
  range := fun a ha => by
    rcases mem_addWord_log.1 ha with ha | ha
    · have := h.ptr
      omega
    · exact h.range a ha

/-- The length of the words that begin in the range. -/
def padded (len : BitVec 64) : BitVec 64 := BitVec.ofNat 64 (8 * ((len.toNat + 7) / 8))

/-- If they end below the top of the address space, all of them are added, and
the second loop is not entered. -/
theorem calcChecksum_padded (m : Memory)
    (hfit : data.toNat + 8 * ((len.toNat + 7) / 8) < 2 ^ 64) {fuel : ℕ}
    (hfuel : (len.toNat + 7) / 8 < fuel) : ∃ s, calcChecksum m data len fuel = some s ∧
      Words m data (padded len) ((len.toNat + 7) / 8) s := by
  have hpad : (padded len).toNat = 8 * ((len.toNat + 7) / 8) := by
    rw [padded, BitVec.toNat_ofNat, Nat.mod_eq_of_lt (by omega)]
  have hend : (data + len).toNat = data.toNat + len.toNat := toNat_end (by omega)
  have hstep : ∀ k < (len.toNat + 7) / 8, ∀ s, Words m data (padded len) k s →
      s.ptr.ult (data + len) = true ∧
        ∃ s', some (addWord m s) = some s' ∧ Words m data (padded len) (k + 1) s' := by
    intro k hk s hs
    refine ⟨?_, _, rfl, hs.addWord (by omega) (by omega)⟩
    rw [BitVec.ult, hend, hs.ptr]
    exact decide_eq_true (by omega)
  have hstop : ∀ s, Words m data (padded len) ((len.toNat + 7) / 8) s →
      s.ptr.ult (data + len) = false := by
    intro s hs
    rw [BitVec.ult, hend, hs.ptr]
    exact decide_eq_false (by omega)
  obtain ⟨s, hrun, hs⟩ := whileLoop_steps (Words m data (padded len)) hstep hstop hfuel
    (s := ⟨data, 0, []⟩) ⟨rfl, rfl, by simp⟩
  refine ⟨s, ?_, hs⟩
  obtain ⟨fuel, rfl⟩ := Nat.exists_eq_add_of_lt (Nat.zero_lt_of_lt hfuel)
  rw [calcChecksum, hrun, Option.bind_eq_bind, Option.bind_some]
  simp only [whileLoop, hstop s hs, Bool.false_eq_true, if_false]

/-- The first loop stops exactly behind a range of whole words. -/
theorem calcChecksum_words (m : Memory) (hfit : data.toNat + len.toNat < 2 ^ 64)
    (h8 : 8 ∣ len.toNat) : ∃ fuel s, calcChecksum m data len fuel = some s ∧
      Words m data len (len.toNat / 8) s := by
  have hwords : (len.toNat + 7) / 8 = len.toNat / 8 := by omega
  have hpad : padded len = len := by
    rw [padded, hwords, Nat.mul_div_cancel' h8, BitVec.ofNat_toNat, BitVec.setWidth_eq]
  have hends : data.toNat + 8 * ((len.toNat + 7) / 8) < 2 ^ 64 := by omega
  obtain ⟨s, hrun, hs⟩ := calcChecksum_padded m hends (Nat.lt_succ_self _)
  rw [hpad, hwords] at hs
  exact ⟨_, s, hrun, hs⟩

theorem documentedSum_congr {data len : ℕ}
    (h : ∀ a, data ≤ a → a < data + len → m' a = m a) :
    documentedSum m' data len = documentedSum m data len := by
  have hwords : ∀ i ∈ Finset.range (len / 8),
      BitVec.ofNat 64 (load m' (data + 8 * i) 8) = BitVec.ofNat 64 (load m (data + 8 * i) 8) := by
    intro i hi
    have := Finset.mem_range.1 hi
    rw [load_congr fun x _ _ => h x (by omega) (by omega)]
  have hbytes : ∀ i ∈ Finset.range (len % 8), (m' (data + 8 * (len / 8) + i)).signExtend 64 =
      (m (data + 8 * (len / 8) + i)).signExtend 64 := by
    intro i hi
    have := Finset.mem_range.1 hi
    rw [h _ (by omega) (by omega)]
  rw [documentedSum, documentedSum, Finset.sum_congr rfl hwords, Finset.sum_congr rfl hbytes]

/-- Something behind the range has been read. -/
def Overread (data len : BitVec 64) (s : Scan) : Prop :=
  ∃ a ∈ s.log, data.toNat + len.toNat ≤ a

/-- With bytes left over the first loop cannot stop at the end of the range; a
word that starts before it is the last one inside. -/
theorem addWord_overreads {s : Scan} (hfit : data.toNat + len.toNat < 2 ^ 64)
    (h8 : ¬ 8 ∣ len.toNat)
    (hs : Overread data len s ∨
      ∃ k, s.ptr.toNat = data.toNat + 8 * k ∧ 8 * k < len.toNat) :
    Overread data len (addWord m s) ∨
      ∃ k, (addWord m s).ptr.toNat = data.toNat + 8 * k ∧ 8 * k < len.toNat := by
  rcases hs with ⟨a, ha, hle⟩ | ⟨k, hptr, hk⟩
  · exact Or.inl ⟨a, mem_addWord_log.2 (Or.inr ha), hle⟩
  rcases Nat.lt_or_ge (8 * (k + 1)) len.toNat with hlt | hge
  · refine Or.inr ⟨k + 1, ?_, hlt⟩
    rw [addWord_ptr m (by omega)]
    omega
  · have hne : len.toNat ≠ 8 * (k + 1) := fun h => h8 ⟨k + 1, h⟩
    exact Or.inl ⟨data.toNat + len.toNat, mem_addWord_log.2 (Or.inl (by omega)), Nat.le_refl _⟩

theorem calcChecksum_overreads (hfit : data.toNat + len.toNat < 2 ^ 64) (h8 : ¬ 8 ∣ len.toNat)
    {fuel : ℕ} {s : Scan} (hrun : calcChecksum m data len fuel = some s) :
    Overread data len s := by
  obtain ⟨s₁, hrun₁, hrun₂⟩ := Option.bind_eq_some_iff.1 hrun
  have hpos : 0 < len.toNat := Nat.pos_of_ne_zero fun h => h8 (h ▸ Nat.dvd_zero 8)
  have h₁ : Overread data len s₁ := by
    obtain ⟨hinv, hstop⟩ := whileLoop_invariant
      (fun s => Overread data len s ∨ ∃ k, s.ptr.toNat = data.toNat + 8 * k ∧ 8 * k < len.toNat)
      (fun s s' hs _ hb => Option.some.inj hb ▸ addWord_overreads hfit h8 hs)
      (Or.inr ⟨0, rfl, hpos⟩) hrun₁
    rcases hinv with hover | ⟨k, hptr, hk⟩
    · exact hover
    · rw [BitVec.ult, toNat_end hfit, hptr] at hstop
      exact absurd hk (by simpa using hstop)
  refine (whileLoop_invariant (Overread data len) (fun s s' hs _ hb => ?_) h₁ hrun₂).1
  obtain ⟨a, ha, hle⟩ := hs
  obtain rfl := Option.some.inj hb
  exact ⟨a, List.mem_cons_of_mem _ ha, hle⟩

/-- The checksum is that of the range exactly for whole words. -/
theorem checksum_right_iff (m : Memory) (data len : BitVec 64)
    (hfit : data.toNat + len.toNat < 2 ^ 64) :
    ChecksumRight m data len ↔ 8 ∣ len.toNat := by
  constructor
  · intro h
    obtain ⟨fuel, s, hrun, -, hin⟩ := h m fun _ _ _ => rfl
    by_contra h8
    obtain ⟨a, ha, hle⟩ := calcChecksum_overreads hfit h8 hrun
    exact absurd (hin a ha).2 (Nat.not_lt.2 hle)
  · intro h8 m' hagree
    obtain ⟨fuel, s, hrun, hs⟩ := calcChecksum_words m' hfit h8
    refine ⟨fuel, s, hrun, ?_, hs.range⟩
    rw [← documentedSum_congr hagree, documentedSum, Nat.mod_eq_zero_of_dvd h8,
      Finset.sum_range_zero, add_zero, hs.sum]

theorem checksum_right_sixteen : ChecksumRight (fun a => BitVec.ofNat 8 a) 4096 16 :=
  (checksum_right_iff _ _ _ (by decide)).2 (by decide)

/-- One byte at address 8: the byte behind it changes the checksum. -/
theorem checksum_wrong_one :
    ¬ ChecksumRight (fun _ => 0) 8 1 ∧
      ∃ s s', calcChecksum (fun _ => 0) 8 1 2 = some s ∧
        calcChecksum (fun a => if a = 9 then 1 else 0) 8 1 2 = some s' ∧
        s'.checksum ≠ s.checksum := by
  refine ⟨fun h => ?_, _, _, rfl, rfl, by decide +kernel⟩
  obtain ⟨fuel, s, hrun, -, hin⟩ := h _ fun _ _ _ => rfl
  obtain ⟨a, ha, hle⟩ := calcChecksum_overreads (by decide) (by decide) hrun
  exact absurd (hin a ha).2 (Nat.not_lt.2 hle)

end SyscallAdvent.Checksum
