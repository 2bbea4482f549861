import Mathlib.Data.Rat.Cast.Order
import SyscallAdvent.Lib.MeanRate
import SyscallAdvent.Proofs.SendfileRounds

/-! The averages that `main` prints. They are means of rates, each of which counts
the same whatever time its round takes, so they are above the rate of all rounds
together as soon as two rounds take different times. -/

namespace SyscallAdvent.Sendfile

open CLoop SeekFile

theorem measure_rate {host : Host} (hok : host.Ok) {copy : Copy} (hcopy : Copies copy)
    (hcount : Counts copy) (input : List (BitVec 8)) (k : ℕ) :
    measure host copy (filesAfter input k) =
      some (input.length / host.delta, filesAfter input (k + 1)) := by
  obtain ⟨rate, hrun⟩ := measure_filesAfter hok hcopy input k
  have hrate : rate = input.length / host.delta := by
    obtain ⟨h1, h2, h3, h4⟩ := hok
    simp only [measure, if_neg (Int.not_lt.2 h1), if_neg (Int.not_lt.2 h2),
      if_neg (Int.not_lt.2 h3), if_neg (Int.not_lt.2 h4), Option.some.injEq,
      Prod.mk.injEq] at hrun
    rw [← hrun.1, hcount]
    simp [filesAfter, OpenFile.lseek, OpenFile.readAll, Host.delta]
  rw [hrun, hrate]

/-- `i` rounds are done, and their rates are added up. -/
structure Rated (w : World) (input : List (BitVec 8)) (i : ℕ) (p : Progress) : Prop where
  files : p.files = filesAfter input (2 * i)
  sendfile : p.sendfile = ∑ k ∈ Finset.range i, input.length / (w.hosts (2 * k)).delta
  write : p.write = ∑ k ∈ Finset.range i, input.length / (w.hosts (2 * k + 1)).delta

section

variable {w : World} (hhosts : ∀ k, (w.hosts k).Ok)
  (hsendfile : ∀ k, Copies (w.copySendfile k) ∧ Counts (w.copySendfile k))
  (hwrite : ∀ k, Copies (w.copyWrite k) ∧ Counts (w.copyWrite k))

include hhosts hsendfile hwrite

theorem oneRound_rated {input : List (BitVec 8)} {i : ℕ} {p : Progress}
    (h : Rated w input i p) : ∃ p', oneRound w i p = some p' ∧ Rated w input (i + 1) p' := by
  have hm := measure_rate (hhosts (2 * i)) (hsendfile i).1 (hsendfile i).2 input (2 * i)
  have hm' := measure_rate (hhosts (2 * i + 1)) (hwrite (i + 1)).1 (hwrite (i + 1)).2 input
    (2 * i + 1)
  rw [← h.files] at hm
  simp only [oneRound, hm, hm', Option.bind_eq_bind, Option.bind_some, Option.pure_def]
  refine ⟨_, rfl, rfl, ?_, ?_⟩
  · rw [Finset.sum_range_succ, ← h.sendfile]
  · rw [Finset.sum_range_succ, ← h.write]

theorem main_rated (input : List (BitVec 8)) (rounds : ℤ) {fuel : ℕ}
    (hfuel : rounds.toNat < fuel) :
    ∃ p, main w input rounds fuel = some p ∧ Rated w input rounds.toNat p := by
  have hwarm : (w.copyWrite 0 ⟨⟨input, 0⟩, ⟨[], 0⟩⟩).2 = filesAfter input 0 := by
    rw [(hwrite 0).1, ← copied_filesAfter, Nat.zero_mul]
  unfold main
  rw [hwarm]
  refine forLoop_steps (Rated w input) (fun i : ℕ => (i : ℤ)) (fun i _ => (Nat.cast_succ i).symm)
    (fun i hi => decide_eq_true (by omega)) (decide_eq_false (by omega)) ?_ hfuel
    ⟨rfl, by simp, by simp⟩
  intro i _ p hp
  exact oneRound_rated hhosts hsendfile hwrite hp

end

/-- The mean of the rates against the rate of all rounds, in MiB. -/
theorem overstates_mean {time : ℕ → ℚ} (htime : ∀ k, 0 < time k) (bytes : ℕ) {n : ℕ}
    (hn : 0 < n) :
    Overstates ((∑ i ∈ Finset.range n, bytes / time i) / n / (1024 * 1024)) bytes n time := by
  have hs : (Finset.range n).Nonempty := Finset.nonempty_range_iff.2 hn.ne'
  have hpos : ∀ i ∈ Finset.range n, 0 < time i := fun i _ => htime i
  have hle := MeanRate.rate_le_mean (bytes : ℚ) hs hpos (Nat.cast_nonneg bytes)
  have hiff := MeanRate.rate_eq_mean_iff (bytes : ℚ) hs hpos
  rw [Finset.card_range] at hle hiff
  refine ⟨?_, ?_⟩
  · gcongr
  · rw [div_left_inj' (by norm_num), hiff]
    simp

/-- If all calls succeed and every round takes time: each average that `main` prints
is at least what was copied in all rounds divided by the time that they took, and
more unless the rounds took equal times or the file is empty. -/
theorem averages_overstate (w : World) (hhosts : ∀ k, (w.hosts k).Ok)
    (hsendfile : ∀ k, Copies (w.copySendfile k) ∧ Counts (w.copySendfile k))
    (hwrite : ∀ k, Copies (w.copyWrite k) ∧ Counts (w.copyWrite k))
    (hclock : ∀ k, 0 < (w.hosts k).delta) (input : List (BitVec 8)) (rounds : ℤ)
    (hrounds : 0 < rounds) :
    ∃ fuel p, main w input rounds fuel = some p ∧
      Overstates (averages p rounds).1 input.length rounds.toNat
        (fun i => (w.hosts (2 * i)).delta) ∧
      Overstates (averages p rounds).2 input.length rounds.toNat
        (fun i => (w.hosts (2 * i + 1)).delta) := by
  obtain ⟨p, hrun, -, hsum, hsum'⟩ := main_rated hhosts hsendfile hwrite input rounds
    (Nat.lt_succ_self _)
  have hcast : (rounds : ℚ) = rounds.toNat := by
    rw [← Int.cast_natCast, Int.toNat_of_nonneg hrounds.le]
  refine ⟨_, p, hrun, ?_, ?_⟩
  · rw [averages, hsum, hcast]
    exact overstates_mean (fun k => hclock (2 * k)) input.length (by omega)
  · rw [averages, hsum', hcast]
    exact overstates_mean (fun k => hclock (2 * k + 1)) input.length (by omega)

/-- Two bytes, two rounds. -/
theorem averages_overstate_two :
    ∃ fuel p, main plainWorld [1, 2] 2 fuel = some p ∧
      Overstates (averages p 2).1 2 2 (fun i => (plainWorld.hosts (2 * i)).delta) := by
  obtain ⟨fuel, p, hrun, hsendfile, -⟩ := averages_overstate plainWorld
    (fun _ => by simp [plainWorld, Host.Ok]) (fun _ => ⟨fun _ => rfl, fun _ => rfl⟩)
    (fun _ => ⟨fun _ => rfl, fun _ => rfl⟩) (fun _ => by norm_num [plainWorld, Host.delta])
    [1, 2] 2 (by decide)
  exact ⟨fuel, p, hrun, hsendfile⟩

end SyscallAdvent.Sendfile
