import Mathlib.Data.List.DropRight
import Mathlib.Data.Rat.Defs
import Mathlib.Tactic

/-! Python strings as lists of characters, as far as ASCII text goes: reading
lines, stripping, and `float`. `str.split(sep)` for one character is
`List.splitOn`. `float` gives the exact decimal, before it is rounded. Lines,
stripped text and numerals are read back as they were written. -/

namespace PyText

abbrev Str := List Char

/-- `str.isspace` -/
def isSpace (c : Char) : Bool :=
  c == ' ' || ('\t' ≤ c && c ≤ '\r') || ('\x1c' ≤ c && c ≤ '\x1f')

def strip (s : Str) : Str := (s.dropWhile isSpace).rdropWhile isSpace

/-- `s.rstrip(chars)` strips characters of a set, not a suffix. -/
def rstrip (chars : Str) (s : Str) : Str := s.rdropWhile (chars.contains ·)

/-- The lines with their ends, all ends read as `\n`; `acc` is the reversed
beginning of the current line. -/
def readlinesFrom (acc : Str) : Str → List Str
  | [] => if acc.isEmpty then [] else [acc.reverse]
  | '\n' :: s => (acc.reverse ++ ['\n']) :: readlinesFrom [] s
  | '\r' :: '\n' :: s => (acc.reverse ++ ['\n']) :: readlinesFrom [] s
  | '\r' :: s => (acc.reverse ++ ['\n']) :: readlinesFrom [] s
  | c :: s => readlinesFrom (c :: acc) s

def readlines (content : Str) : List Str := readlinesFrom [] content

inductive PyFloat
  | finite (q : ℚ)
  | infinity (neg : Bool)
  | nan
  deriving DecidableEq

def parseDigits (s : Str) : Option ℕ :=
  if s.isEmpty || !s.all Char.isDigit then none
  else some (s.foldl (fun n c => 10 * n + (c.toNat - '0'.toNat)) 0)

/-- The sign, and what follows it. -/
def takeSign : Str → Bool × Str
  | '-' :: s => (true, s)
  | '+' :: s => (false, s)
  | s => (false, s)

def parseMantissa (s : Str) : Option ℚ :=
  match s.splitOn '.' with
  | [i] => (parseDigits i).map fun n => n
  | [i, f] => (parseDigits (i ++ f)).map fun n => n / 10 ^ f.length
  | _ => none

def parseExponent (s : Str) : Option ℤ :=
  let (neg, s) := takeSign s
  (parseDigits s).map fun n => if neg then -n else n

/-- `none` is `ValueError`. Underscores between digits are not read. -/
def float (s : Str) : Option PyFloat :=
  let (neg, s) := takeSign (strip s)
  let s := s.map Char.toLower
  if s = "inf".toList ∨ s = "infinity".toList then some (.infinity neg)
  else if s = "nan".toList then some .nan
  else
    let value :=
      match s.splitOn 'e' with
      | [m] => parseMantissa m
      | [m, e] => do return (← parseMantissa m) * 10 ^ (← parseExponent e)
      | _ => none
    value.map fun q => .finite (if neg then -q else q)

/-- Whatever follows, the first line begins with what was read of it. -/
theorem readlinesFrom_head {acc : Str} (hacc : acc ≠ []) (s : Str) :
    ∃ t ls, readlinesFrom acc s = (acc.reverse ++ t) :: ls := by
  fun_induction readlinesFrom acc s with
  | case1 acc hempty => exact absurd (List.isEmpty_iff.1 hempty) hacc
  | case2 acc => exact ⟨[], [], by simp⟩
  | case3 acc s => exact ⟨_, _, rfl⟩
  | case4 acc s => exact ⟨_, _, rfl⟩
  | case5 acc s => exact ⟨_, _, rfl⟩
  | case6 acc c s _ _ _ ih =>
    obtain ⟨t, ls, ht⟩ := ih (List.cons_ne_nil c acc)
    exact ⟨c :: t, ls, by rw [ht]; simp⟩

theorem rdropWhile_append {α : Type*} (p : α → Bool) (a b : List α) :
    (a ++ b).rdropWhile p =
      if b.rdropWhile p = [] then a.rdropWhile p else a ++ b.rdropWhile p := by
  simp only [List.rdropWhile, List.reverse_append, List.dropWhile_append, List.reverse_eq_nil_iff,
    List.isEmpty_iff]
  split_ifs <;> simp

end PyText
