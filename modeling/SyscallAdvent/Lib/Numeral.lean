import Mathlib.Data.Nat.Digits.Lemmas
import Mathlib.Tactic

/-! Numbers as text. The numeral of a number in a base, its value, and the line
that shows an integer; and buffers that are filled from their end, as printers do
that meet the last digit first. -/

namespace Numeral

def charByte (c : Char) : BitVec 8 := BitVec.ofNat 8 c.toNat

def digitByte (d : ℕ) : BitVec 8 := charByte d.digitChar

/-- The digits of a number, the first one first; 0 has none. -/
def digits (b n : ℕ) : List (BitVec 8) := (Nat.digits b n).reverse.map digitByte

def numeral (b n : ℕ) : List (BitVec 8) := if n = 0 then [digitByte 0] else digits b n

def digitValue (c : BitVec 8) : ℕ := if c.toNat < 58 then c.toNat - 48 else c.toNat - 87

def value (b : ℕ) (l : List (BitVec 8)) : ℕ := l.foldl (fun v c => b * v + digitValue c) 0

/-- An integer with its sign, and the end of the line. -/
def line (b : ℕ) (z : ℤ) : List (BitVec 8) :=
  (if z < 0 then [charByte '-'] else []) ++ numeral b z.natAbs ++ [charByte '\n']

def readLine (b : ℕ) (l : List (BitVec 8)) : ℤ :=
  if l.head? = some (charByte '-') then -value b l.tail.dropLast else value b l.dropLast

section

variable {b n : ℕ}

theorem digits_zero (b : ℕ) : digits b 0 = [] := by
  simp [digits]

theorem digits_of_pos (hb : 1 < b) (hn : 0 < n) :
    digits b n = digits b (n / b) ++ [digitByte (n % b)] := by
  simp [digits, Nat.digits_def' hb hn]

/-- What a printer writes that always writes the last digit. -/
theorem numeral_eq (hb : 1 < b) (n : ℕ) :
    numeral b n = digits b (n / b) ++ [digitByte (n % b)] := by
  rcases Nat.eq_zero_or_pos n with rfl | hn
  · simp [numeral, digits_zero]
  · rw [numeral, if_neg hn.ne', digits_of_pos hb hn]

theorem length_numeral_le {k : ℕ} (hb : 1 < b) (hk : 0 < k) (hn : n < b ^ k) :
    (numeral b n).length ≤ k := by
  unfold numeral
  split_ifs
  · exact hk
  · simpa [digits] using (Nat.digits_length_le_iff hb n).2 hn

theorem digitValue_digitByte {d : ℕ} (hd : d < 16) : digitValue (digitByte d) = d := by
  revert d
  decide

theorem digitByte_ne_minus {d : ℕ} (hd : d < 16) : digitByte d ≠ charByte '-' := by
  revert d
  decide

theorem value_concat (b : ℕ) (l : List (BitVec 8)) (c : BitVec 8) :
    value b (l ++ [c]) = b * value b l + digitValue c := by
  simp [value]

theorem value_digits (hb : 1 < b) (h16 : b ≤ 16) (n : ℕ) : value b (digits b n) = n := by
  induction n using Nat.strong_induction_on with
  | _ n ih =>
    rcases Nat.eq_zero_or_pos n with rfl | hn
    · rw [digits_zero]
      rfl
    · have hmod := Nat.mod_lt n (by omega : b > 0)
      rw [digits_of_pos hb hn, value_concat, ih _ (Nat.div_lt_self hn hb),
        digitValue_digitByte (by omega), Nat.div_add_mod]

theorem value_numeral (hb : 1 < b) (h16 : b ≤ 16) (n : ℕ) : value b (numeral b n) = n := by
  unfold numeral
  split_ifs with hn
  · rw [hn]
    rfl
  · exact value_digits hb h16 n

/-- There are no leading zeros. -/
theorem numeral_cons (hb : 1 < b) (n : ℕ) :
    ∃ d rest, numeral b n = digitByte d :: rest ∧ d < b ∧ (d = 0 → n = 0) := by
  rcases Nat.eq_zero_or_pos n with rfl | hn
  · exact ⟨0, [], rfl, by omega, fun _ => rfl⟩
  · obtain h | ⟨init, d, h⟩ := (Nat.digits b n).eq_nil_or_concat
    · exact absurd (Nat.digits_eq_nil_iff_eq_zero.1 h) hn.ne'
    · have hd : d ∈ Nat.digits b n := by simp [h]
      have hlast := Nat.getLast_digit_ne_zero b hn.ne'
      simp only [h, List.concat_eq_append, List.getLast_append_singleton] at hlast
      exact ⟨d, init.reverse.map digitByte, by simp [numeral, digits, hn.ne', h],
        Nat.digits_lt_base hb hd, fun h0 => absurd h0 hlast⟩

theorem readLine_line (hb : 1 < b) (h16 : b ≤ 16) (z : ℤ) : readLine b (line b z) = z := by
  by_cases hz : z < 0
  · simp only [readLine, line, if_pos hz, List.cons_append, List.nil_append, List.head?_cons,
      if_true, List.tail_cons, List.dropLast_concat, value_numeral hb h16]
    omega
  · obtain ⟨d, rest, hcons, hd, -⟩ := numeral_cons hb z.natAbs
    have hminus : digitByte d ≠ charByte '-' := digitByte_ne_minus (by omega)
    have hhead : (line b z).head? ≠ some (charByte '-') := by
      simpa [line, hz, hcons] using hminus
    rw [readLine, if_neg hhead, line, if_neg hz, List.nil_append, List.dropLast_concat,
      value_numeral hb h16]
    omega

end

section

variable {α : Type*}

/-- Memory around a buffer, by the distance from its start, and the write pointer. -/
structure Backfill (α : Type*) where
  mem : ℤ → α
  p : ℤ

/-- The pointer behind the last element. -/
def Backfill.start (mem : ℤ → α) (size : ℕ) : Backfill α := ⟨mem, size⟩

/-- `*(--p) = c` -/
def Backfill.push (b : Backfill α) (c : α) : Backfill α :=
  ⟨Function.update b.mem (b.p - 1) c, b.p - 1⟩

/-- The first elements from the pointer on. -/
def Backfill.read (b : Backfill α) (len : ℕ) : List α :=
  (List.range len).map fun i : ℕ => b.mem (b.p + i)

theorem Backfill.push_p (b : Backfill α) (c : α) : (b.push c).p = b.p - 1 := rfl

theorem Backfill.read_push (b : Backfill α) (c : α) (len : ℕ) :
    (b.push c).read (len + 1) = c :: b.read len := by
  have hrest : ∀ i : ℕ, (b.push c).mem (b.p - 1 + (i + 1 : ℕ)) = b.mem (b.p + i) := by
    intro i
    have hpos : b.p - 1 + (i + 1 : ℕ) = b.p + i := by omega
    rw [hpos]
    exact Function.update_of_ne (by omega) _ _
  have hfirst : (b.push c).mem (b.p - 1 + (0 : ℕ)) = c := by simp [push]
  rw [read, List.range_succ_eq_map, List.map_cons, List.map_map, push_p, hfirst, read]
  exact congrArg _ (List.map_congr_left fun i _ => hrest i)

end

end Numeral
