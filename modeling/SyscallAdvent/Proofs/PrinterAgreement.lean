import SyscallAdvent.Proofs.PrinterSigaction

/-! The printer of `02-clone`, and its agreement with that of `06-sigaction`. Its
loop runs as long as the number is positive, so for the most negative number it
prints a sign and no digits. -/

namespace SyscallAdvent.Printer

open CLoop Numeral

namespace Clone

variable {m : ℕ} {text : List (BitVec 8)}

theorem digit_eq {number : BitVec 32} (hx : number.toInt = m) :
    (number.srem 10 + 48).setWidth 8 = digitByte (m % 10) := by
  have hrem : number.srem 10 = BitVec.ofNat 32 (m % 10) := by
    apply BitVec.eq_of_toInt_eq
    have hsmall : ∀ d < 10, (BitVec.ofNat 32 d).toInt = d := by decide
    rw [toInt_srem_nat hx (b := 10) rfl, hsmall _ (Nat.mod_lt m (by decide))]
  have hchar : ∀ d < 10, (BitVec.ofNat 32 d + 48).setWidth 8 = digitByte d := by
    decide
  rw [hrem, hchar _ (Nat.mod_lt m (by decide))]

theorem putDigit_spells {s : Digits 32} (h : Spells 10 text 12 m s) (hm : 0 < m) :
    Spells 10 text 12 (m / 10) (putDigit s) := by
  refine h.push (by decide) hm (toInt_sdiv_nat h.number rfl (by decide)) ?_ rfl
  rw [← digit_eq h.number]
  rfl

theorem digitLoop_prints {s : Digits 32} (h : Spells 10 text 12 m s) (hsize : text.length ≤ 12)
    {fuel : ℕ} (hfuel : m < fuel) : ∃ s', digitLoop fuel s = some s' ∧
      s'.buffer.read s'.len = text ∧ 0 ≤ s'.buffer.p := by
  have hcond : ∀ s : Digits 32, 0 ≤ s.number.toInt →
      ((0 : BitVec 32).slt s.number = true ↔ 0 < s.number.toInt) := by
    intro s _
    simp [BitVec.slt]
  obtain ⟨s', hrun, htext, hp, -⟩ := digitLoop_spells id (fun _ => True) (by decide) hsize
    hcond (fun s m hm _ hpos => ⟨putDigit_spells hm hpos, trivial⟩) h trivial hfuel
  exact ⟨s', hrun, htext, hp⟩

theorem syscallWrite_eq_some {mem : ℤ → BitVec 8} {msg : List (BitVec 8)} {number : BitVec 32}
    (hne : number ≠ 0) {fuel : ℕ} {r : Printed} :
    syscallWrite mem msg number fuel = some r ↔
      ∃ s, digitLoop fuel (.start mem 12 (absWord number)) = some s ∧
        r = ⟨msg :: ((if number.slt 0 then [[charByte '-']] else []) ++
          [s.buffer.read s.len]), some s.buffer.p, [], 0⟩ := by
  rw [syscallWrite, if_pos hne]
  refine Option.bind_eq_some_iff.trans (exists_congr fun s => and_congr_right fun _ => ?_)
  exact ⟨fun h => (Option.some.inj h).symm, fun h => congrArg some h.symm⟩

theorem syscallWrite_prints (mem : ℤ → BitVec 8) (msg : List (BitVec 8)) {number : BitVec 32}
    (hne : number ≠ BitVec.intMin 32) {fuel : ℕ} (hfuel : number.toInt.natAbs < fuel) :
    ∃ r, syscallWrite mem msg number fuel = some r ∧
      r.writes.flatten = msg ++ line 10 number.toInt ∧ ∀ p ∈ r.p, 0 ≤ p := by
  by_cases h0 : number = 0
  · subst h0
    have hline : line 10 (0 : BitVec 32).toInt = [charByte '0', charByte '\n'] := by decide
    exact ⟨_, rfl, by rw [hline]; simp, fun p hp => nomatch hp⟩
  have hx := toInt_absWord hne
  have hn : number.toInt.natAbs < 10 ^ 11 := (natAbs_toInt_lt hne).trans (by decide)
  have hpos : number.toInt.natAbs ≠ 0 := by
    rw [Int.natAbs_ne_zero]
    exact fun h => h0 (BitVec.eq_of_toInt_eq h)
  have hdigits : digits 10 number.toInt.natAbs = numeral 10 number.toInt.natAbs :=
    (if_neg hpos).symm
  have hsize : (digits 10 number.toInt.natAbs ++ [charByte '\n']).length ≤ 12 := by
    have := length_numeral_le (by decide) (by decide) hn
    rw [hdigits, List.length_append, List.length_singleton]
    omega
  obtain ⟨s, hrun, htext, hp⟩ := digitLoop_prints (start_spells mem hx) hsize hfuel
  refine ⟨_, (syscallWrite_eq_some h0).2 ⟨s, hrun, rfl⟩, ?_, fun p hp' => ?_⟩
  · rw [htext, hdigits]
    exact flatten_writes msg 10 number
  · obtain rfl := Option.some.inj hp'
    exact hp

/-- Only a sign: the loop is not entered. -/
theorem syscallWrite_intMin (mem : ℤ → BitVec 8) (msg : List (BitVec 8)) {fuel : ℕ}
    {r : Printed} (hrun : syscallWrite mem msg (BitVec.intMin 32) fuel = some r) :
    r.writes.flatten = msg ++ [charByte '-', charByte '\n'] := by
  obtain ⟨s, hloop, rfl⟩ := (syscallWrite_eq_some (by decide)).1 hrun
  have hstop : (0 : BitVec 32).slt (absWord (BitVec.intMin 32)) = false := by decide
  have hfirst : digitLoop 1 (.start mem 12 (absWord (BitVec.intMin 32))) =
      some (.start mem 12 (absWord (BitVec.intMin 32))) := by
    simp only [digitLoop, whileLoop, Digits.start, hstop, Bool.false_eq_true, if_false]
  obtain rfl := whileLoop_unique hloop hfirst
  have hsign : (BitVec.intMin 32).slt 0 = true := by decide
  have hread := Digits.start_read mem 12 (absWord (BitVec.intMin 32))
  simp only [Digits.start] at hread ⊢
  simp only [hsign, if_true, hread, List.flatten_cons, List.cons_append, List.nil_append,
    List.flatten_nil]

end Clone

/-- Widening an `int` changes neither its value nor its line. -/
theorem widened_prints (around mem : ℤ → BitVec 8) (msg : List (BitVec 8)) (number : BitVec 32)
    {fuel : ℕ} (hfuel : number.toInt.natAbs < fuel) :
    ∃ r, Sigaction.syscallWrite around mem msg (number.signExtend 64) 10 fuel = some r ∧
      r.writes.flatten = msg ++ line 10 number.toInt ∧ ∀ p ∈ r.p, 0 ≤ p := by
  have hwide : (number.signExtend 64).toInt = number.toInt :=
    BitVec.toInt_signExtend_of_le (by decide)
  have hne : number.signExtend 64 ≠ BitVec.intMin 64 := by
    intro h
    have hle := BitVec.le_toInt number
    rw [← hwide, h] at hle
    exact absurd hle (by decide)
  obtain ⟨r, hrun, htext, -, hp⟩ := Sigaction.syscallWrite_prints around mem msg hne
    (by decide : 2 ≤ (10 : BitVec 8).toInt) (by decide) (by rw [hwide]; exact hfuel)
  rw [hwide] at htext
  exact ⟨r, hrun, htext, hp⟩

theorem not_agree_intMin (msg : List (BitVec 8)) : ¬ Agree msg (BitVec.intMin 32) := by
  intro h
  obtain ⟨fuel, r, r', hrun, hrun', hsame, -⟩ := h (fun _ => 0) (fun _ => 0) fun _ => 0
  obtain ⟨r₁, hrun₁, htext, -⟩ :=
    widened_prints (fun _ => 0) (fun _ => 0) msg (BitVec.intMin 32) (Nat.lt_succ_self _)
  obtain rfl := Sigaction.syscallWrite_unique hrun' hrun₁
  rw [Clone.syscallWrite_intMin _ msg hrun, htext] at hsame
  obtain ⟨d, rest, hcons, -⟩ := numeral_cons (b := 10) (by decide) (BitVec.intMin 32).toInt.natAbs
  have hneg : (BitVec.intMin 32).toInt < 0 := by decide
  simpa [line, hneg, hcons] using List.append_cancel_left hsame

/-- The printers agree on every number but the most negative `int`. -/
theorem printers_agree_iff (msg : List (BitVec 8)) (number : BitVec 32) :
    Agree msg number ↔ number ≠ BitVec.intMin 32 := by
  constructor
  · intro h heq
    subst heq
    exact not_agree_intMin msg h
  · intro hne around mem mem'
    obtain ⟨r, hrun, htext, hp⟩ :=
      Clone.syscallWrite_prints mem msg hne (Nat.lt_succ_self _)
    obtain ⟨r', hrun', htext', hp'⟩ :=
      widened_prints around mem' msg number (Nat.lt_succ_self _)
    exact ⟨_, r, r', hrun, hrun', htext.trans htext'.symm, hp, hp'⟩

/-- The most negative `int`: one prints a sign only. -/
theorem printers_disagree_intMin :
    (∃ r, Clone.syscallWrite (fun _ => 0) [] (BitVec.intMin 32) 1 = some r ∧
      r.writes.flatten = [charByte '-', charByte '\n']) ∧ ¬ Agree [] (BitVec.intMin 32) :=
  ⟨⟨_, rfl, by decide +kernel⟩, not_agree_intMin []⟩

end SyscallAdvent.Printer
