import SyscallAdvent.Proofs.PrinterDigits

/-! The printer of `06-sigaction`. All numbers but one are printed exactly, in
every base of the digit table. The most negative number stays negative when it is
negated, so its remainders do, and the table is read in front of its start. -/

namespace SyscallAdvent.Printer.Sigaction

open CLoop Numeral

variable {around : ℤ → BitVec 8} {base : BitVec 64} {b m : ℕ} {text : List (BitVec 8)}

theorem digitTable_digit (around : ℤ → BitVec 8) {d : ℕ} (hd : d < 16) :
    digitTable around d = digitByte d := by
  have hchar : ∀ d < 16, charByte ("0123456789abcdef".toList.getD d ' ') = digitByte d := by
    decide
  rw [digitTable, if_pos (by omega), Int.toNat_natCast, hchar d hd]

/-- The digits so far were read from inside the table. -/
def InTable (s : Printing) : Prop := ∀ i ∈ s.indices, 0 ≤ i ∧ i ≤ 15

theorem putDigit_eq (around : ℤ → BitVec 8) {s : Printing} (hx : s.digits.number.toInt = m)
    (hbase : base.toInt = b) (hb : 1 < b) (h16 : b ≤ 16) : putDigit around base s =
      ⟨⟨s.digits.number.sdiv base, s.digits.buffer.push (digitByte (m % b)), s.digits.len + 1⟩,
        (m % b : ℕ) :: s.indices⟩ := by
  have hmod := Nat.mod_lt m (by omega : b > 0)
  rw [putDigit, toInt_srem_nat hx hbase, digitTable_digit around (by omega)]

theorem InTable.putDigit {s : Printing} (h : InTable s) (hx : s.digits.number.toInt = m)
    (hbase : base.toInt = b) (hb : 1 < b) (h16 : b ≤ 16) :
    InTable (putDigit around base s) := by
  have hmod := Nat.mod_lt m (by omega : b > 0)
  rw [putDigit_eq around hx hbase hb h16]
  exact List.forall_mem_cons.2 ⟨by omega, h⟩

theorem putDigit_spells {s : Printing} (h : Spells b text 64 m s.digits) (hbase : base.toInt = b)
    (hb : 1 < b) (h16 : b ≤ 16) (hm : 0 < m) :
    Spells b text 64 (m / b) (putDigit around base s).digits := by
  rw [putDigit_eq around h.number hbase hb h16]
  exact h.push hb hm (toInt_sdiv_nat h.number hbase hb) rfl rfl

theorem digitLoop_prints (around mem : ℤ → BitVec 8) (hbase : base.toInt = b) (hb : 1 < b)
    (h16 : b ≤ 16) {number : BitVec 64} (hx : number.toInt = m)
    (hsize : (numeral b m).length ≤ 63) {fuel : ℕ} (hfuel : m < fuel) :
    ∃ s, digitLoop around base fuel ⟨.start mem 64 number, []⟩ = some s ∧
      s.digits.buffer.read s.digits.len = numeral b m ++ [charByte '\n'] ∧
      0 ≤ s.digits.buffer.p ∧ InTable s := by
  have hcond : ∀ s : Printing, 0 ≤ s.digits.number.toInt →
      ((s.digits.number != 0) = true ↔ 0 < s.digits.number.toInt) := by
    intro s hnonneg
    have hzero : s.digits.number = 0 ↔ s.digits.number.toInt = 0 := BitVec.toInt_inj.symm
    rw [bne_iff_ne, ne_eq, hzero]
    omega
  -- the first digit is stored before the test
  have hin : InTable ⟨.start mem 64 number, []⟩ := fun i hi => absurd hi List.not_mem_nil
  have hfirst : Spells b (numeral b m ++ [charByte '\n']) 64 (m / b)
      (putDigit around base ⟨.start mem 64 number, []⟩).digits := by
    rw [putDigit_eq around (s := ⟨.start mem 64 number, []⟩) hx hbase hb h16]
    exact first_spells mem hb (toInt_sdiv_nat hx hbase hb) rfl rfl
  have hlength : (numeral b m ++ [charByte '\n']).length ≤ 64 := by
    rw [List.length_append, List.length_singleton]
    omega
  exact digitLoop_spells Printing.digits InTable hb hlength hcond
    (fun s m hm hs hpos => ⟨putDigit_spells hm hbase hb h16 hpos,
      hs.putDigit hm.number hbase hb h16⟩)
    hfirst (hin.putDigit hx hbase hb h16) ((Nat.div_le_self m b).trans_lt hfuel)

theorem syscallWrite_eq_some {mem : ℤ → BitVec 8} {msg : List (BitVec 8)} {number : BitVec 64}
    {base : BitVec 8} {fuel : ℕ} {r : Printed} :
    syscallWrite around mem msg number base fuel = some r ↔
      ∃ s, digitLoop around (base.signExtend 64) fuel ⟨.start mem 64 (absWord number), []⟩ =
          some s ∧
        r = ⟨msg :: ((if number.slt 0 then [[charByte '-']] else []) ++
          [s.digits.buffer.read s.digits.len]), some s.digits.buffer.p, s.indices, 0⟩ := by
  refine Option.bind_eq_some_iff.trans (exists_congr fun s => and_congr_right fun _ => ?_)
  exact ⟨fun h => (Option.some.inj h).symm, fun h => congrArg some h.symm⟩

theorem syscallWrite_unique {mem : ℤ → BitVec 8} {msg : List (BitVec 8)} {number : BitVec 64}
    {base : BitVec 8} {fuel fuel' : ℕ} {r r' : Printed}
    (h : syscallWrite around mem msg number base fuel = some r)
    (h' : syscallWrite around mem msg number base fuel' = some r') : r = r' := by
  obtain ⟨s, hrun, rfl⟩ := syscallWrite_eq_some.1 h
  obtain ⟨s', hrun', rfl⟩ := syscallWrite_eq_some.1 h'
  rw [whileLoop_unique hrun hrun']

/-- A `char` from 2 to 16, as the operators extend it. -/
theorem toInt_base {base : BitVec 8} (hlo : 2 ≤ base.toInt) (hhi : base.toInt ≤ 16) :
    (base.signExtend 64).toInt = base.toNat ∧ 1 < base.toNat ∧ base.toNat ≤ 16 := by
  have hnat := BitVec.toInt_eq_toNat_cond base
  rw [BitVec.toInt_signExtend_of_le (by decide)]
  split_ifs at hnat <;> omega

theorem syscallWrite_prints (around mem : ℤ → BitVec 8) (msg : List (BitVec 8))
    {number : BitVec 64} (hne : number ≠ BitVec.intMin 64) {base : BitVec 8}
    (hlo : 2 ≤ base.toInt) (hhi : base.toInt ≤ 16) {fuel : ℕ}
    (hfuel : number.toInt.natAbs < fuel) :
    ∃ r, syscallWrite around mem msg number base fuel = some r ∧
      r.writes.flatten = msg ++ line base.toNat number.toInt ∧
      (∀ i ∈ r.indices, 0 ≤ i ∧ i ≤ 15) ∧ ∀ p ∈ r.p, 0 ≤ p := by
  obtain ⟨hbase, hb, h16⟩ := toInt_base hlo hhi
  have hx := toInt_absWord hne
  have hn : number.toInt.natAbs < base.toNat ^ 63 :=
    (natAbs_toInt_lt hne).trans_le (Nat.pow_le_pow_left hb 63)
  obtain ⟨s, hrun, htext, hp, hin⟩ := digitLoop_prints around mem hbase hb h16 hx
    (length_numeral_le hb (by decide) hn) hfuel
  refine ⟨_, syscallWrite_eq_some.2 ⟨s, hrun, rfl⟩, ?_, hin, fun p hp' => ?_⟩
  · rw [htext]
    exact flatten_writes msg base.toNat number
  · obtain rfl := Option.some.inj hp'
    exact hp

/-- A negative number, or the trace of one. -/
def LeftTable (s : Printing) : Prop :=
  s.digits.number.toInt < 0 ∨ ∃ i ∈ s.indices, i < 0

theorem LeftTable.putDigit {s : Printing} (h : LeftTable s) (hbase : base.toInt = b)
    (hb : 1 < b) : LeftTable (putDigit around base s) := by
  rcases h with hneg | ⟨i, hi, hlt⟩
  · have hsplit := Int.mul_tdiv_add_tmod s.digits.number.toInt b
    have hindex : (s.digits.number.srem base).toInt = s.digits.number.toInt.tmod b := by
      rw [BitVec.toInt_srem, hbase]
    rcases lt_or_ge (s.digits.number.toInt.tmod b) 0 with hlt | hge
    · exact Or.inr ⟨_, List.mem_cons_self, hindex ▸ hlt⟩
    · refine Or.inl ?_
      show (s.digits.number.sdiv base).toInt < 0
      rw [toInt_sdiv_base _ hbase hb]
      by_contra hnonneg
      have := mul_nonneg (Int.natCast_nonneg b) (not_lt.1 hnonneg)
      omega
  · exact Or.inr ⟨i, List.mem_cons_of_mem _ hi, hlt⟩

/-- A loop that starts with a negative number cannot reach 0 inside the table. -/
theorem digitLoop_leaves_table (hbase : base.toInt = b) (hb : 1 < b) {s s' : Printing}
    (hneg : s.digits.number.toInt < 0) {fuel : ℕ}
    (hrun : digitLoop around base fuel s = some s') : ∃ i ∈ s'.indices, i < 0 := by
  have hfirst : LeftTable (putDigit around base s) := LeftTable.putDigit (Or.inl hneg) hbase hb
  have hstep : ∀ s s', LeftTable s → (s.digits.number != 0) = true →
      some (putDigit around base s) = some s' → LeftTable s' := by
    intro s s' hs _ hs'
    obtain rfl := Option.some.inj hs'
    exact hs.putDigit hbase hb
  obtain ⟨hinv, hstop⟩ := whileLoop_invariant LeftTable hstep hfirst hrun
  have h0 : s'.digits.number = 0 := by simpa using hstop
  rcases hinv with hneg' | hindex
  · rw [h0] at hneg'
    exact absurd hneg' (by decide)
  · exact hindex

theorem not_printsExactly_intMin (msg : List (BitVec 8)) {base : BitVec 8}
    (hlo : 2 ≤ base.toInt) (hhi : base.toInt ≤ 16) :
    ¬ PrintsExactly msg (BitVec.intMin 64) base := by
  intro h
  obtain ⟨fuel, r, hrun, -, -, hin, -⟩ := h (fun _ => 0) fun _ => 0
  obtain ⟨s, hloop, rfl⟩ := syscallWrite_eq_some.1 hrun
  obtain ⟨hbase, hb, -⟩ := toInt_base hlo hhi
  obtain ⟨i, hi, hlt⟩ := digitLoop_leaves_table hbase hb (by decide) hloop
  have := (hin i hi).1
  omega

/-- The printer is exact for every number but the most negative one. -/
theorem prints_exactly_iff (msg : List (BitVec 8)) (number : BitVec 64) (base : BitVec 8)
    (hlo : 2 ≤ base.toInt) (hhi : base.toInt ≤ 16) :
    PrintsExactly msg number base ↔ number ≠ BitVec.intMin 64 := by
  constructor
  · intro h heq
    subst heq
    exact not_printsExactly_intMin msg hlo hhi h
  · intro hne around mem
    obtain ⟨-, hb, h16⟩ := toInt_base hlo hhi
    obtain ⟨r, hrun, htext, hin, hp⟩ :=
      syscallWrite_prints around mem msg hne hlo hhi (Nat.lt_succ_self _)
    refine ⟨_, r, hrun, htext, ?_, hin, hp⟩
    rw [htext, List.drop_left, readLine_line hb h16]

theorem prints_exactly_hex : PrintsExactly [] (-255) 16 :=
  (prints_exactly_iff [] (-255) 16 (by decide) (by decide)).2 (by decide)

/-- The most negative number in base 10: its remainders are negative. -/
theorem prints_wrong_intMin : ¬ PrintsExactly [] (BitVec.intMin 64) 10 :=
  not_printsExactly_intMin [] (by decide) (by decide)

end SyscallAdvent.Printer.Sigaction
