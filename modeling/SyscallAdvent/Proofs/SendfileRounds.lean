import Mathlib.Tactic
import SyscallAdvent.Spec.Sendfile

/-! What the rounds leave in the output file. `ftruncate` does not move the
offset, so each copy starts where the last one ended, and the content is the
input behind a gap that grows by its length with every `measure`. -/

namespace SyscallAdvent.Sendfile

open CLoop SeekFile

/-- The files after the warm-up and `k` calls of `measure`. -/
def filesAfter (input : List (BitVec 8)) (k : ℕ) : Files where
  fdIn := ⟨input, input.length⟩
  fdOut := ⟨List.replicate (k * input.length) 0 ++ input, (k + 1) * input.length⟩

theorem copied_filesAfter (input : List (BitVec 8)) (k : ℕ) :
    copied ⟨⟨input, 0⟩, ⟨[], k * input.length⟩⟩ = filesAfter input k := by
  simp only [copied, OpenFile.readAll_start, OpenFile.writeAll_empty, filesAfter, Nat.succ_mul]
  cases input <;> simp

theorem measure_ok {host : Host} (hok : host.Ok) (copy : Copy) (s : Files) :
    ∃ rate, measure host copy s =
      some (rate, (copy ⟨s.fdIn.lseek 0, s.fdOut.ftruncate 0⟩).2) := by
  obtain ⟨h1, h2, h3, h4⟩ := hok
  unfold measure
  simp only [if_neg (Int.not_lt.2 h1), if_neg (Int.not_lt.2 h2), if_neg (Int.not_lt.2 h3),
    if_neg (Int.not_lt.2 h4)]
  exact ⟨_, rfl⟩

theorem measure_filesAfter {host : Host} (hok : host.Ok) {copy : Copy} (hcopy : Copies copy)
    (input : List (BitVec 8)) (k : ℕ) :
    ∃ rate, measure host copy (filesAfter input k) = some (rate, filesAfter input (k + 1)) := by
  obtain ⟨rate, hrate⟩ := measure_ok hok copy (filesAfter input k)
  rw [hcopy, OpenFile.ftruncate_zero] at hrate
  exact ⟨rate, hrate.trans (by rw [← copied_filesAfter input (k + 1)]; rfl)⟩

/-- `i` rounds are done. -/
structure Rounds (input : List (BitVec 8)) (i : ℕ) (p : Progress) : Prop where
  files : p.files = filesAfter input (2 * i)
  log : p.log = (List.range (2 * i + 1)).map (filesAfter input)

section

variable {w : World} (hhosts : ∀ k, (w.hosts k).Ok) (hsendfile : ∀ k, Copies (w.copySendfile k))
  (hwrite : ∀ k, Copies (w.copyWrite k))

include hhosts hsendfile hwrite

theorem oneRound_rounds {input : List (BitVec 8)} {i : ℕ} {p : Progress}
    (h : Rounds input i p) : ∃ p', oneRound w i p = some p' ∧ Rounds input (i + 1) p' := by
  obtain ⟨rate, hm⟩ := measure_filesAfter (hhosts (2 * i)) (hsendfile i) input (2 * i)
  obtain ⟨rate', hm'⟩ :=
    measure_filesAfter (hhosts (2 * i + 1)) (hwrite (i + 1)) input (2 * i + 1)
  rw [← h.files] at hm
  simp only [oneRound, hm, hm', Option.bind_eq_bind, Option.bind_some, Option.pure_def]
  exact ⟨_, rfl, rfl, by simp [h.log, Nat.mul_succ, List.range_succ]⟩

/-- The loop makes `rounds` rounds, or none. -/
theorem main_rounds (input : List (BitVec 8)) (rounds : ℤ) {fuel : ℕ}
    (hfuel : rounds.toNat < fuel) :
    ∃ p, main w input rounds fuel = some p ∧ Rounds input rounds.toNat p := by
  have hwarm : (w.copyWrite 0 ⟨⟨input, 0⟩, ⟨[], 0⟩⟩).2 = filesAfter input 0 := by
    rw [hwrite 0, ← copied_filesAfter, Nat.zero_mul]
  unfold main
  rw [hwarm]
  refine forLoop_steps (Rounds input) (fun i : ℕ => (i : ℤ)) (fun i _ => (Nat.cast_succ i).symm)
    (fun i hi => decide_eq_true (by omega)) (decide_eq_false (by omega)) ?_ hfuel ⟨rfl, rfl⟩
  intro i _ p hp
  exact oneRound_rounds hhosts hsendfile hwrite hp

end

theorem filesAfter_faithful_iff (input : List (BitVec 8)) (k : ℕ) :
    (filesAfter input k).fdOut.content = (filesAfter input k).fdIn.content ↔
      k = 0 ∨ input = [] := by
  simp [filesAfter]

/-- If all calls succeed: every copy is faithful exactly if there is nothing to
copy, or nothing is measured. -/
theorem copies_faithfully_iff (w : World) (hhosts : ∀ k, (w.hosts k).Ok)
    (hsendfile : ∀ k, Copies (w.copySendfile k)) (hwrite : ∀ k, Copies (w.copyWrite k))
    (input : List (BitVec 8)) (rounds : ℤ) :
    CopiesFaithfully w input rounds ↔ input = [] ∨ rounds ≤ 0 := by
  obtain ⟨p, hrun, hp⟩ := main_rounds hhosts hsendfile hwrite input rounds (Nat.lt_succ_self _)
  have hlen : p.log.length = 2 * rounds.toNat + 1 := by simp [hp.log]
  constructor
  · intro hfaithful
    obtain ⟨fuel, p', hrun', -, hall⟩ := hfaithful
    unfold main at hrun hrun'
    obtain rfl := forLoop_unique hrun hrun'
    by_contra h
    obtain ⟨hne, hpos⟩ := not_or.1 h
    -- the first `measure` already leaves a gap
    have hmem : filesAfter input 1 ∈ p.log := by
      rw [hp.log]
      exact List.mem_map_of_mem (List.mem_range.2 (by omega))
    rcases (filesAfter_faithful_iff input 1).1 (hall _ hmem) with h1 | h1
    · omega
    · exact hne h1
  · intro h
    refine ⟨_, p, hrun, hlen, fun s hs => ?_⟩
    rw [hp.log] at hs
    obtain ⟨k, hk, rfl⟩ := List.mem_map.1 hs
    have := List.mem_range.1 hk
    refine (filesAfter_faithful_iff input k).2 ?_
    rcases h with h | h
    · exact Or.inr h
    · exact Or.inl (by omega)

/-- A world in which nothing fails and everything is copied at once. -/
def plainWorld : World :=
  let copy : Copy := fun s => ((s.fdIn.readAll.1.length, 2), copied s)
  ⟨fun _ => ⟨0, 0, 0, ⟨0, 0⟩, 0, ⟨1, 0⟩⟩, fun _ => copy, fun _ => copy⟩

/-- An empty file with ten rounds, and a file of two bytes with none. -/
theorem copies_faithfully_two :
    CopiesFaithfully plainWorld [] 10 ∧ CopiesFaithfully plainWorld [1, 2] 0 := by
  have hiff := copies_faithfully_iff plainWorld (fun _ => by simp [plainWorld, Host.Ok])
    (fun _ _ => rfl) (fun _ _ => rfl)
  exact ⟨(hiff [] 10).2 (Or.inl rfl), (hiff [1, 2] 0).2 (Or.inr le_rfl)⟩

/-- One byte, one round: the output is longer than the input. -/
theorem copies_unfaithfully_one : ¬ CopiesFaithfully plainWorld [1] 1 := by
  intro hfaithful
  obtain ⟨fuel, p, hrun, -, hall⟩ := hfaithful
  obtain ⟨p', hrun', hp'⟩ := main_rounds (w := plainWorld) (fun _ => by simp [plainWorld, Host.Ok])
    (fun _ _ => rfl) (fun _ _ => rfl) [1] 1 (Nat.lt_succ_self _)
  unfold main at hrun hrun'
  obtain rfl := forLoop_unique hrun hrun'
  have hmem : filesAfter [1] 1 ∈ p.log := by
    rw [hp'.log]
    exact List.mem_map_of_mem (by decide)
  exact absurd (hall _ hmem) (by decide)

end SyscallAdvent.Sendfile
