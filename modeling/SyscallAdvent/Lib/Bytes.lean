import Mathlib.Logic.Function.Basic
import Mathlib.Tactic

/-! Byte memory with little-endian words of any width, and writes of whole
ranges. Three facts are used of it: what was stored is loaded again, a store is
not seen elsewhere, and a load depends on its own range only. -/

namespace Bytes

abbrev Memory := ℕ → BitVec 8

/-- The `n` bytes from `a` on, as a little-endian number. -/
def load (m : Memory) (a : ℕ) : ℕ → ℕ
  | 0 => 0
  | n + 1 => (m a).toNat + 256 * load m (a + 1) n

/-- `v` in the `n` bytes from `a` on; what does not fit is dropped. -/
def store (m : Memory) (a : ℕ) : ℕ → ℕ → Memory
  | 0, _ => m
  | n + 1, v => Function.update (store m (a + 1) n (v / 256)) a (BitVec.ofNat 8 v)

def storeRange {n : ℕ} (m : Memory) (a : ℕ) (data : Fin n → BitVec 8) : Memory := fun x =>
  if h : a ≤ x ∧ x < a + n then data ⟨x - a, by omega⟩ else m x

theorem load_congr {m m' : Memory} {a n : ℕ} (h : ∀ x, a ≤ x → x < a + n → m x = m' x) :
    load m a n = load m' a n := by
  induction n generalizing a with
  | zero => rfl
  | succ n ih =>
    rw [load, load, h a (Nat.le_refl a) (by omega), ih fun x h1 h2 => h x (by omega) (by omega)]

theorem load_lt (m : Memory) (a n : ℕ) : load m a n < 256 ^ n := by
  induction n generalizing a with
  | zero => exact Nat.one_pos
  | succ n ih =>
    have hbyte := (m a).isLt
    have hrest := ih (a + 1)
    rw [load, pow_succ]
    omega

/-- A load tells all bytes of its range. -/
theorem load_inj {m m' : Memory} {a n : ℕ} (h : load m a n = load m' a n) :
    ∀ x, a ≤ x → x < a + n → m x = m' x := by
  induction n generalizing a with
  | zero => intro x h1 h2; omega
  | succ n ih =>
    have hbyte := (m a).isLt
    have hbyte' := (m' a).isLt
    rw [load, load] at h
    intro x h1 h2
    rcases Nat.eq_or_lt_of_le h1 with rfl | h1
    · exact BitVec.eq_of_toNat_eq (by omega)
    · exact ih (a := a + 1) (by omega) x h1 (by omega)

theorem store_frame (m : Memory) {a n x : ℕ} (v : ℕ) (hx : x < a ∨ a + n ≤ x) :
    store m a n v x = m x := by
  induction n generalizing a v with
  | zero => rfl
  | succ n ih =>
    rw [store, Function.update_of_ne (by omega), ih _ (by omega)]

theorem load_store (m : Memory) (a : ℕ) {n v : ℕ} (hv : v < 256 ^ n) :
    load (store m a n v) a n = v := by
  induction n generalizing a v with
  | zero => rw [load]; omega
  | succ n ih =>
    have hq : v / 256 < 256 ^ n := by rw [pow_succ] at hv; omega
    have htail : load (store m a (n + 1) v) (a + 1) n = v / 256 := by
      rw [← ih (a + 1) hq]
      refine load_congr fun x h1 _ => ?_
      rw [store, Function.update_of_ne (by omega)]
    rw [load, htail, store, Function.update_self, BitVec.toNat_ofNat]
    omega

theorem load_store_frame (m : Memory) {a n a' n' : ℕ} (v : ℕ)
    (h : a' + n' ≤ a ∨ a + n ≤ a') : load (store m a n v) a' n' = load m a' n' :=
  load_congr fun _ _ _ => store_frame m v (by omega)

theorem load_storeRange_frame {n : ℕ} (m : Memory) {a a' n' : ℕ} (data : Fin n → BitVec 8)
    (h : a' + n' ≤ a ∨ a + n ≤ a') : load (storeRange m a data) a' n' = load m a' n' :=
  load_congr fun x _ _ => dif_neg (by omega)

end Bytes
