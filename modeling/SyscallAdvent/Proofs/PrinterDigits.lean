import SyscallAdvent.Spec.Printer

/-! What the two number printers share: a number that is not negative is spelled
from its last digit on, in a buffer that is filled from its end. The numbers are
words of any width; only the most negative one has no absolute value. -/

namespace SyscallAdvent.Printer

open CLoop Numeral

section

variable {w b m size : ℕ} {text : List (BitVec 8)} {s s' : Digits w}

/-- The digits of the number that is left, and then the buffer, are the text. -/
structure Spells (b : ℕ) (text : List (BitVec 8)) (size m : ℕ) (s : Digits w) : Prop where
  number : s.number.toInt = m
  text : digits b m ++ s.buffer.read s.len = text
  pointer : s.buffer.p + s.len = size

/-- Storing the last digit and dividing. -/
theorem Spells.push (h : Spells b text size m s) (hb : 1 < b) (hm : 0 < m)
    (hnumber : s'.number.toInt = (m / b : ℕ))
    (hbuffer : s'.buffer = s.buffer.push (digitByte (m % b))) (hlen : s'.len = s.len + 1) :
    Spells b text size (m / b) s' where
  number := hnumber
  text := by
    rw [hbuffer, hlen, Backfill.read_push, ← h.text, digits_of_pos hb hm, List.append_assoc,
      List.singleton_append]
  pointer := by
    have := h.pointer
    rw [hbuffer, hlen, Backfill.push_p, Nat.cast_succ]
    omega

/-- When nothing is left, the buffer is the text, and has room for it. -/
theorem Spells.done (h : Spells b text size m s) (h0 : s.number.toInt = 0)
    (hsize : text.length ≤ size) : s.buffer.read s.len = text ∧ 0 ≤ s.buffer.p := by
  have hm : m = 0 := by
    have := h.number
    omega
  have htext : s.buffer.read s.len = text := by
    rw [← h.text, hm, digits_zero, List.nil_append]
  have hlen : s.len = text.length := by
    rw [← htext]
    simp [Backfill.read]
  have := h.pointer
  exact ⟨htext, by omega⟩

/-- A loop that stores one digit after the other until nothing is left; `P` is
what else it keeps. -/
theorem digitLoop_spells {σ : Type*} (digits : σ → Digits w) (P : σ → Prop) {cond : σ → Bool}
    {put : σ → σ} (hb : 1 < b) (hsize : text.length ≤ size)
    (hcond : ∀ s, 0 ≤ (digits s).number.toInt → (cond s = true ↔ 0 < (digits s).number.toInt))
    (hput : ∀ s m, Spells b text size m (digits s) → P s → 0 < m →
      Spells b text size (m / b) (digits (put s)) ∧ P (put s))
    {s : σ} (h : Spells b text size m (digits s)) (hP : P s) {fuel : ℕ} (hfuel : m < fuel) :
    ∃ s', whileLoop cond (fun s => some (put s)) fuel s = some s' ∧
      (digits s').buffer.read (digits s').len = text ∧ 0 ≤ (digits s').buffer.p ∧ P s' := by
  have hstep : ∀ s, (∃ m, Spells b text size m (digits s)) ∧ P s → cond s = true →
      ∃ s', some (put s) = some s' ∧ ((∃ m, Spells b text size m (digits s')) ∧ P s') ∧
        (digits s').number.toInt.toNat < (digits s).number.toInt.toNat := by
    intro s hs hc
    obtain ⟨⟨m, hm⟩, hs⟩ := hs
    have hnumber := hm.number
    have hpos : 0 < m := by
      have := (hcond s (by omega)).1 hc
      omega
    have hdiv := Nat.div_lt_self hpos hb
    obtain ⟨hm', hs'⟩ := hput s m hm hs hpos
    refine ⟨_, rfl, ⟨⟨_, hm'⟩, hs'⟩, ?_⟩
    rw [hm'.number, hnumber]
    omega
  have hless : (digits s).number.toInt.toNat < fuel := by
    rw [h.number]
    exact hfuel
  obtain ⟨s', hrun, ⟨⟨m', hm'⟩, hs'⟩, hstop⟩ := whileLoop_variant _ _ hstep hless ⟨⟨m, h⟩, hP⟩
  have hnumber := hm'.number
  have hzero : (digits s').number.toInt = 0 := by
    by_contra hne
    rw [(hcond s' (by omega)).2 (by omega)] at hstop
    exact Bool.noConfusion hstop
  obtain ⟨htext, hp⟩ := hm'.done hzero hsize
  exact ⟨s', hrun, htext, hp, hs'⟩

theorem toInt_sdiv_base (x : BitVec w) {y : BitVec w} (hy : y.toInt = b) (hb : 1 < b) :
    (x.sdiv y).toInt = x.toInt.tdiv b := by
  have hne : y ≠ -1#w := by
    intro h
    rw [h, BitVec.neg_one_eq_allOnes, BitVec.toInt_allOnes] at hy
    split_ifs at hy
    omega
  rw [BitVec.toInt_sdiv_of_ne_or_ne _ _ (Or.inr hne), hy]

theorem toInt_sdiv_nat {x y : BitVec w} (hx : x.toInt = m) (hy : y.toInt = b) (hb : 1 < b) :
    (x.sdiv y).toInt = (m / b : ℕ) := by
  rw [toInt_sdiv_base x hy hb, hx]
  rfl

theorem toInt_srem_nat {x y : BitVec w} (hx : x.toInt = m) (hy : y.toInt = b) :
    (x.srem y).toInt = (m % b : ℕ) := by
  rw [BitVec.toInt_srem, hx, hy]
  rfl

theorem toInt_mul_neg_one {x : BitVec w} (hx : x ≠ BitVec.intMin w) :
    (x * -1).toInt = -x.toInt := by
  rw [mul_neg_one, BitVec.toInt_neg_of_ne_intMin hx]

theorem Digits.start_read (mem : ℤ → BitVec 8) (size : ℕ) (number : BitVec w) :
    (Digits.start mem size number).buffer.read 1 = [charByte '\n'] := by
  rw [start, Backfill.read_push]
  rfl

theorem Digits.start_pointer (mem : ℤ → BitVec 8) (size : ℕ) (number : BitVec w) :
    (Digits.start mem size number).buffer.p + 1 = size := by
  simp [start, Backfill.push_p, Backfill.start]

theorem start_spells (mem : ℤ → BitVec 8) {number : BitVec w} (hx : number.toInt = m) :
    Spells b (digits b m ++ [charByte '\n']) size m (Digits.start mem size number) :=
  ⟨hx, congrArg _ (Digits.start_read mem size number), Digits.start_pointer mem size number⟩

/-- The first digit is stored also if the number is 0. -/
theorem first_spells (mem : ℤ → BitVec 8) {number : BitVec w} (hb : 1 < b)
    (hnumber : s'.number.toInt = (m / b : ℕ))
    (hbuffer : s'.buffer = (Digits.start mem size number).buffer.push (digitByte (m % b)))
    (hlen : s'.len = 2) : Spells b (numeral b m ++ [charByte '\n']) size (m / b) s' where
  number := hnumber
  text := by
    rw [hbuffer, hlen, Backfill.read_push, Digits.start_read, numeral_eq hb, List.append_assoc,
      List.singleton_append]
  pointer := by
    have := Digits.start_pointer mem size number
    rw [hbuffer, hlen, Backfill.push_p]
    omega

/-- The number after `if (number < 0) number *= -1`. -/
def absWord (x : BitVec w) : BitVec w := if x.slt 0 then x * -1 else x

theorem toInt_absWord {x : BitVec w} (hx : x ≠ BitVec.intMin w) :
    (absWord x).toInt = x.toInt.natAbs := by
  have hneg : x.slt 0 = decide (x.toInt < 0) := by simp [BitVec.slt]
  rw [absWord, hneg]
  by_cases h : x.toInt < 0
  · rw [if_pos (decide_eq_true h), toInt_mul_neg_one hx]
    omega
  · rw [if_neg (by simpa using h)]
    omega

theorem natAbs_toInt_lt {x : BitVec w} (hx : x ≠ BitVec.intMin w) :
    x.toInt.natAbs < 2 ^ (w - 1) := by
  have hlt := BitVec.toInt_lt (x := absWord x)
  rw [toInt_absWord hx] at hlt
  exact_mod_cast hlt

/-- The three writes of a number are its line. -/
theorem flatten_writes (msg : List (BitVec 8)) (b : ℕ) (x : BitVec w) :
    (msg :: ((if x.slt 0 then [[charByte '-']] else []) ++
      [numeral b x.toInt.natAbs ++ [charByte '\n']])).flatten = msg ++ line b x.toInt := by
  have hneg : x.slt 0 = decide (x.toInt < 0) := by simp [BitVec.slt]
  rw [hneg, line]
  by_cases h : x.toInt < 0 <;> simp [h]

end

end SyscallAdvent.Printer
