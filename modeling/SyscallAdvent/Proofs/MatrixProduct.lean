import Mathlib.Algebra.Group.Basic
import Mathlib.Tactic
import SyscallAdvent.Spec.Matrix

/-! The blocked and the naive multiplication. Both keep, for each cell of the
result, the sum of its first products in ascending order; how many products
those are is a function of the cell, and each of the six loops moves it on in a
rectangle. Nothing is assumed of the element type but that its two operations
commute. -/

namespace SyscallAdvent.Matrix

open CLoop

section

variable {α : Type*} [Zero α] [Add α] [Mul α]

/-- The sum of the first `k` products of cell `(x, y)`, added in ascending order. -/
def dot (a b : ℕ → α) (n x y : ℕ) : ℕ → α
  | 0 => 0
  | k + 1 => dot a b n x y k + a (x * n + k) * b (k * n + y)

/-- `p`, with `v` in the rectangle of `w` rows from `x₀` and `l` columns from `y₀`. -/
def setTile (p : ℕ → ℕ → ℕ) (x₀ w y₀ l v : ℕ) : ℕ → ℕ → ℕ := fun x y =>
  if x₀ ≤ x ∧ x < x₀ + w ∧ y₀ ≤ y ∧ y < y₀ + l then v else p x y

/-! How tiles join: side by side, one below the other, and one over the other. -/

theorem setTile_columns (p : ℕ → ℕ → ℕ) (x₀ w y₀ l l' v : ℕ) :
    setTile (setTile p x₀ w y₀ l v) x₀ w (y₀ + l) l' v = setTile p x₀ w y₀ (l + l') v := by
  funext x y
  unfold setTile
  split_ifs <;> omega

theorem setTile_rows (p : ℕ → ℕ → ℕ) (x₀ w w' y₀ l v : ℕ) :
    setTile (setTile p x₀ w y₀ l v) (x₀ + w) w' y₀ l v = setTile p x₀ (w + w') y₀ l v := by
  funext x y
  unfold setTile
  split_ifs <;> omega

theorem setTile_over (p : ℕ → ℕ → ℕ) (x₀ w y₀ l v v' : ℕ) :
    setTile (setTile p x₀ w y₀ l v) x₀ w y₀ l v' = setTile p x₀ w y₀ l v' := by
  funext x y
  unfold setTile
  split_ifs <;> rfl

/-- A tile that changes nothing, in particular one without rows or columns. -/
theorem setTile_eq_self {p : ℕ → ℕ → ℕ} {x₀ w y₀ l v : ℕ}
    (h : ∀ x y, x₀ ≤ x → x < x₀ + w → y₀ ≤ y → y < y₀ + l → p x y = v) :
    setTile p x₀ w y₀ l v = p := by
  funext x y
  unfold setTile
  split_ifs with hin
  · obtain ⟨h1, h2, h3, h4⟩ := hin
    exact (h x y h1 h2 h3 h4).symm
  · rfl

/-- The accesses since `h₀` stay below `n * n`. -/
def InBounds (n : ℕ) (h₀ h : Heap α) : Prop := ∀ q ∈ h.log, q ∈ h₀.log ∨ q.2 < n * n

/-- Since `h₀` only `C` has changed, to the partial sums that `p` counts. -/
structure Tiled (n : ℕ) (A B C : Mat) (h₀ h : Heap α) (p : ℕ → ℕ → ℕ) : Prop where
  frame : ∀ m, m ≠ C → h.elem m = h₀.elem m
  cells : ∀ x < n, ∀ y < n,
    h.elem C (x * n + y) = dot (h₀.elem A) (h₀.elem B) n x y (p x y)
  bounds : InBounds n h₀ h

theorem Tiled.congr {n : ℕ} {A B C : Mat} {h₀ h : Heap α} {p p' : ℕ → ℕ → ℕ}
    (ht : Tiled n A B C h₀ h p) (hp : ∀ x < n, ∀ y < n, p x y = p' x y) :
    Tiled n A B C h₀ h p' :=
  ⟨ht.frame, fun x hx y hy => by rw [← hp x hx y hy]; exact ht.cells x hx y hy, ht.bounds⟩

theorem cell_lt {n x y : ℕ} (hx : x < n) (hy : y < n) : x * n + y < n * n := by
  have := Nat.mul_le_mul_right n (Nat.succ_le_of_lt hx)
  rw [Nat.succ_mul] at this
  omega

theorem cell_inj {n x y x' y' : ℕ} (hy : y < n) (hy' : y' < n)
    (h : x * n + y = x' * n + y') : x = x' ∧ y = y' := by
  have hx := congrArg (· / n) h
  have hn : 0 < n := by omega
  simp only [Nat.mul_comm _ n, Nat.mul_add_div hn, Nat.div_eq_of_lt hy, Nat.div_eq_of_lt hy',
    Nat.add_zero] at hx
  subst hx
  exact ⟨rfl, Nat.add_left_cancel h⟩

theorem Tiled.load {n : ℕ} {A B C : Mat} {h₀ h : Heap α} {p : ℕ → ℕ → ℕ}
    (ht : Tiled n A B C h₀ h p) {q : Ptr} (hq : q.2 < n * n) :
    Tiled n A B C h₀ (h.load q).2 p := by
  refine ⟨ht.frame, ht.cells, fun r hr => ?_⟩
  rcases List.mem_cons.1 hr with rfl | hr
  · exact Or.inr hq
  · exact ht.bounds r hr

/-- Storing one more product in a cell. -/
theorem Tiled.store {n : ℕ} {A B C : Mat} {h₀ h : Heap α} {p : ℕ → ℕ → ℕ}
    (ht : Tiled n A B C h₀ h p) {x y k : ℕ} (hx : x < n) (hy : y < n)
    {v : α} (hv : v = dot (h₀.elem A) (h₀.elem B) n x y k) :
    Tiled n A B C h₀ (h.store (C, x * n + y) v) (setTile p x 1 y 1 k) := by
  refine ⟨fun m hm => ?_, fun x' hx' y' hy' => ?_, fun r hr => ?_⟩
  · simp [Heap.store, hm, ht.frame m hm]
  · by_cases hc : x' = x ∧ y' = y
    · obtain ⟨rfl, rfl⟩ := hc
      simp [Heap.store, setTile, hv]
    · have hne : x' * n + y' ≠ x * n + y := fun h => hc (cell_inj hy' hy h)
      have hout : ¬ (x ≤ x' ∧ x' < x + 1 ∧ y ≤ y' ∧ y' < y + 1) := by omega
      rw [setTile, if_neg hout, ← ht.cells x' hx' y' hy']
      simp [Heap.store, hne]
  · rcases List.mem_cons.1 hr with rfl | hr
    · exact Or.inr (cell_lt hx hy)
    · exact ht.bounds r hr

end

section

variable {α : Type*} [Zero α] [AddCommMagma α] [CommMagma α]

/-- The innermost body adds the `k`-th product to two neighbouring cells. -/
theorem addProducts_tiled {n : ℕ} {A B C : Mat} (hB : B ≠ C) {h₀ h : Heap α}
    {p : ℕ → ℕ → ℕ} (ht : Tiled n A B C h₀ h p) {x y k rres rmul2 : ℕ} {j2 : BitVec 32}
    (hx : x < n) (hy : y + 1 < n) (hk : k < n) (hp₀ : p x y = k) (hp₁ : p x (y + 1) = k)
    (hrres : rres + j2.toNat = x * n + y) (hrmul2 : rmul2 + j2.toNat = k * n + y) :
    Tiled n A B C h₀ (addProducts B C rres rmul2 (h₀.elem A (x * n + k)) j2 h)
      (setTile p x 1 y 2 (k + 1)) := by
  have hy₀ : y < n := by omega
  have hb₁ := cell_lt hk hy
  have hc₁ := cell_lt hx hy
  have hload := (((ht.load (q := (B, k * n + y)) (cell_lt hk hy₀)).load
    (q := (B, k * n + y + 1)) hb₁).load (q := (C, x * n + y)) (cell_lt hx hy₀)).load
    (q := (C, x * n + y + 1)) hc₁
  have hstep : ∀ y' < n, p x y' = k →
      h.elem B (k * n + y') * h₀.elem A (x * n + k) + h.elem C (x * n + y') =
        dot (h₀.elem A) (h₀.elem B) n x y' (k + 1) := by
    intro y' hy' hp
    rw [ht.frame B hB, ht.cells x hx y' hy', hp, dot, add_comm, mul_comm]
  have h₁ := (hload.store hx hy₀ (hstep y hy₀ hp₀)).store hx hy (hstep (y + 1) hy hp₁)
  unfold addProducts
  rw [hrres, hrmul2]
  rw [setTile_columns] at h₁
  exact h₁

theorem toNat_ofNat_of_lt {k : ℕ} (h : k < 2 ^ 32) : (BitVec.ofNat 32 k).toNat = k := by
  rw [BitVec.toNat_ofNat, Nat.mod_eq_of_lt h]

theorem ofNat_succ (d k : ℕ) :
    BitVec.ofNat 32 (d * k) + BitVec.ofNat 32 d = BitVec.ofNat 32 (d * (k + 1)) := by
  rw [← BitVec.ofNat_add, Nat.mul_succ]

theorem ofNat_add_one (k : ℕ) : BitVec.ofNat 32 k + 1 = BitVec.ofNat 32 (k + 1) :=
  (BitVec.ofNat_add k 1).symm

theorem ult_ofNat {k : ℕ} (h : k < 2 ^ 32) (N : BitVec 32) :
    (BitVec.ofNat 32 k).ult N = decide (k < N.toNat) := by
  rw [BitVec.ult, toNat_ofNat_of_lt h]

theorem ult_SM {k : ℕ} (h : k < 8) : (BitVec.ofNat 32 k).ult SM = true := by
  rw [ult_ofNat (by omega)]
  exact decide_eq_true h

theorem loopJ2_tiled {n : ℕ} {A B C : Mat} (hB : B ≠ C) {h₀ h : Heap α} {p : ℕ → ℕ → ℕ}
    (ht : Tiled n A B C h₀ h p) {x y₀ k : ℕ} (hx : x < n) (hy : y₀ + 8 ≤ n) (hk : k < n)
    (hp : ∀ y, y₀ ≤ y → y < y₀ + 8 → p x y = k) {fuel : ℕ} (hfuel : 4 < fuel) :
    ∃ h', loopJ2 B C (x * n + y₀) (k * n + y₀) (h₀.elem A (x * n + k)) fuel h = some h' ∧
      Tiled n A B C h₀ h' (setTile p x 1 y₀ 8 (k + 1)) := by
  have hloop : ∃ h', loopJ2 B C (x * n + y₀) (k * n + y₀) (h₀.elem A (x * n + k)) fuel h =
      some h' ∧ Tiled n A B C h₀ h' (setTile p x 1 y₀ (2 * 4) (k + 1)) := by
    refine forLoop_steps (fun m h' => Tiled n A B C h₀ h' (setTile p x 1 y₀ (2 * m) (k + 1)))
      (n := 4) (fun m => BitVec.ofNat 32 (2 * m)) (fun m _ => ofNat_succ 2 m) ?_ rfl ?_ hfuel ?_
    · intro m hm
      exact ult_SM (by omega)
    · intro m hm h' ht'
      have hm' := toNat_ofNat_of_lt (show 2 * m < 2 ^ 32 by omega)
      have hold : ∀ y, y₀ + 2 * m ≤ y → y < y₀ + 8 →
          setTile p x 1 y₀ (2 * m) (k + 1) x y = k := by
        intro y h1 h2
        rw [setTile, if_neg (by omega), hp y (by omega) h2]
      refine ⟨_, rfl, ?_⟩
      rw [Nat.mul_succ, ← setTile_columns]
      exact addProducts_tiled hB ht' hx (by omega) hk (hold _ le_rfl (by omega))
        (hold _ (by omega) (by omega)) (by omega) (by omega)
    · rw [setTile_eq_self (by omega)]
      exact ht
  exact hloop

theorem toNat_index {N i j : BitVec 32} {n x y : ℕ} (hn : N.toNat = n) (hsq : n * n < 2 ^ 32)
    (hi : i.toNat = x) (hj : j.toNat = y) (hx : x < n) (hy : y < n) :
    (i * N + j).toNat = x * n + y := by
  have := cell_lt hx hy
  rw [BitVec.toNat_add, BitVec.toNat_mul, hi, hj, hn, Nat.mod_add_mod, Nat.mod_eq_of_lt (by omega)]

theorem lt_word {n : ℕ} (hsq : n * n < 2 ^ 32) : n < 2 ^ 16 := by
  by_contra h
  have := Nat.mul_le_mul (Nat.le_of_not_lt h) (Nat.le_of_not_lt h)
  omega

theorem loopK2_tiled {N : BitVec 32} {n : ℕ} (hn : N.toNat = n) (hsq : n * n < 2 ^ 32)
    {A B C : Mat} (hA : A ≠ C) (hB : B ≠ C) {h₀ h : Heap α} {p : ℕ → ℕ → ℕ}
    (ht : Tiled n A B C h₀ h p) {x y₀ k₀ : ℕ} (hx : x < n) (hy : y₀ + 8 ≤ n) (hk : k₀ + 8 ≤ n)
    (hp : ∀ y, y₀ ≤ y → y < y₀ + 8 → p x y = k₀) {k j : BitVec 32} (hkk : k.toNat = k₀)
    (hj : j.toNat = y₀) {fuel : ℕ} (hfuel : 8 < fuel) :
    ∃ h', loopK2 N A B C (x * n + y₀) (x * n + k₀) k j fuel h = some h' ∧
      Tiled n A B C h₀ h' (setTile p x 1 y₀ 8 (k₀ + 8)) := by
  unfold loopK2
  rw [toNat_index hn hsq hkk hj (by omega) (by omega)]
  refine forLoop_steps (fun m h' => Tiled n A B C h₀ h' (setTile p x 1 y₀ 8 (k₀ + m)))
    (n := 8) (fun m => (BitVec.ofNat 32 m, (k₀ + m) * n + y₀)) ?_ ?_ rfl ?_ hfuel ?_
  · intro m _
    refine Prod.ext (ofNat_add_one m) ?_
    simp only [hn, ← Nat.add_assoc, Nat.succ_mul]
    omega
  · intro m hm
    exact ult_SM hm
  · intro m hm h' ht'
    have hm' := toNat_ofNat_of_lt (show m < 2 ^ 32 by omega)
    have hread : h'.elem A (x * n + k₀ + (BitVec.ofNat 32 m).toNat) =
        h₀.elem A (x * n + (k₀ + m)) := by
      rw [ht'.frame A hA, hm', Nat.add_assoc]
    have hload := ht'.load (q := (A, x * n + k₀ + (BitVec.ofNat 32 m).toNat))
      (by rw [hm', Nat.add_assoc]; exact cell_lt hx (by omega))
    have hold : ∀ y, y₀ ≤ y → y < y₀ + 8 → setTile p x 1 y₀ 8 (k₀ + m) x y = k₀ + m := by
      intro y h1 h2
      rw [setTile, if_pos (by omega)]
    obtain ⟨h'', hrun, ht''⟩ := loopJ2_tiled hB hload hx hy (k := k₀ + m) (by omega) hold
      (show 4 < fuel by omega)
    rw [setTile_over] at ht''
    exact ⟨h'', by simpa only [Heap.load, hread] using hrun, ht''⟩
  · have hself : setTile p x 1 y₀ 8 (k₀ + 0) = p := by
      apply setTile_eq_self
      intro x' y' h1 h2 h3 h4
      obtain rfl : x' = x := by omega
      exact hp y' h3 h4
    rw [hself]
    exact ht

theorem loopI2_tiled {N : BitVec 32} {n : ℕ} (hn : N.toNat = n) (hsq : n * n < 2 ^ 32)
    {A B C : Mat} (hA : A ≠ C) (hB : B ≠ C) {h₀ h : Heap α} {p : ℕ → ℕ → ℕ}
    (ht : Tiled n A B C h₀ h p) {x₀ y₀ k₀ : ℕ} (hx : x₀ + 8 ≤ n) (hy : y₀ + 8 ≤ n)
    (hk : k₀ + 8 ≤ n)
    (hp : ∀ x y, x₀ ≤ x → x < x₀ + 8 → y₀ ≤ y → y < y₀ + 8 → p x y = k₀) {i j k : BitVec 32}
    (hi : i.toNat = x₀) (hj : j.toNat = y₀) (hkk : k.toNat = k₀) {fuel : ℕ} (hfuel : 8 < fuel) :
    ∃ h', loopI2 N A B C i j k fuel h = some h' ∧
      Tiled n A B C h₀ h' (setTile p x₀ 8 y₀ 8 (k₀ + 8)) := by
  unfold loopI2
  rw [toNat_index hn hsq hi hj (by omega) (by omega),
    toNat_index hn hsq hi hkk (by omega) (by omega)]
  refine forLoop_steps (fun m h' => Tiled n A B C h₀ h' (setTile p x₀ m y₀ 8 (k₀ + 8)))
    (n := 8) (fun m => (BitVec.ofNat 32 m, (x₀ + m) * n + y₀, (x₀ + m) * n + k₀))
    ?_ ?_ rfl ?_ hfuel ?_
  · intro m _
    refine Prod.ext (ofNat_add_one m) (Prod.ext ?_ ?_) <;>
    · simp only [hn, ← Nat.add_assoc, Nat.succ_mul]
      omega
  · intro m hm
    exact ult_SM hm
  · intro m hm h' ht'
    have hold : ∀ y, y₀ ≤ y → y < y₀ + 8 →
        setTile p x₀ m y₀ 8 (k₀ + 8) (x₀ + m) y = k₀ := by
      intro y h1 h2
      rw [setTile, if_neg (by omega), hp _ y (by omega) (by omega) h1 h2]
    obtain ⟨h'', hrun, ht''⟩ := loopK2_tiled hn hsq hA hB ht' (x := x₀ + m) (by omega) hy hk hold
      hkk hj hfuel
    rw [setTile_rows] at ht''
    exact ⟨h'', hrun, ht''⟩
  · rw [setTile_eq_self (by omega)]
    exact ht

/-- The three outer headers count in tiles of eight, up to a multiple of eight. -/
theorem tile_header {N : BitVec 32} {t : ℕ} (hn : N.toNat = 8 * t) (hlt : 8 * t < 2 ^ 32) :
    (∀ m < t, BitVec.ofNat 32 (8 * m) + SM = BitVec.ofNat 32 (8 * (m + 1))) ∧
      (∀ m < t, (BitVec.ofNat 32 (8 * m)).ult N = true) ∧
      (BitVec.ofNat 32 (8 * t)).ult N = false := by
  refine ⟨fun m _ => ofNat_succ 8 m, fun m hm => ?_, ?_⟩
  · rw [ult_ofNat (by omega), hn]
    exact decide_eq_true (by omega)
  · rw [ult_ofNat hlt, hn]
    exact decide_eq_false (lt_irrefl _)

theorem loopK_tiled {N : BitVec 32} {t : ℕ} (hn : N.toNat = 8 * t)
    (hsq : 8 * t * (8 * t) < 2 ^ 32) {A B C : Mat} (hA : A ≠ C) (hB : B ≠ C) {h₀ h : Heap α}
    {p : ℕ → ℕ → ℕ} (ht : Tiled (8 * t) A B C h₀ h p) {x₀ y₀ : ℕ} (hx : x₀ + 8 ≤ 8 * t)
    (hy : y₀ + 8 ≤ 8 * t)
    (hp : ∀ x y, x₀ ≤ x → x < x₀ + 8 → y₀ ≤ y → y < y₀ + 8 → p x y = 0) {i j : BitVec 32}
    (hi : i.toNat = x₀) (hj : j.toNat = y₀) {fuel : ℕ} (hfuel : 8 * t + 8 < fuel) :
    ∃ h', loopK N A B C i j fuel h = some h' ∧
      Tiled (8 * t) A B C h₀ h' (setTile p x₀ 8 y₀ 8 (8 * t)) := by
  have hlt := lt_word hsq
  obtain ⟨hnext, hcond, hend⟩ := tile_header hn (by omega)
  refine forLoop_steps (fun m h' => Tiled (8 * t) A B C h₀ h' (setTile p x₀ 8 y₀ 8 (8 * m)))
    (fun m => BitVec.ofNat 32 (8 * m)) hnext hcond hend ?_ (by omega) ?_
  · intro m hm h' ht'
    obtain ⟨h'', hrun, ht''⟩ := loopI2_tiled hn hsq hA hB ht' hx hy
      (show 8 * m + 8 ≤ 8 * t by omega)
      (fun x y h1 h2 h3 h4 => if_pos ⟨h1, h2, h3, h4⟩) hi hj (toNat_ofNat_of_lt (by omega))
      (show 8 < fuel by omega)
    rw [setTile_over] at ht''
    exact ⟨h'', hrun, ht''⟩
  · rw [setTile_eq_self hp]
    exact ht

theorem loopJ_tiled {N : BitVec 32} {t : ℕ} (hn : N.toNat = 8 * t)
    (hsq : 8 * t * (8 * t) < 2 ^ 32) {A B C : Mat} (hA : A ≠ C) (hB : B ≠ C) {h₀ h : Heap α}
    {p : ℕ → ℕ → ℕ} (ht : Tiled (8 * t) A B C h₀ h p) {x₀ : ℕ} (hx : x₀ + 8 ≤ 8 * t)
    (hp : ∀ x y, x₀ ≤ x → x < x₀ + 8 → p x y = 0) {i : BitVec 32}
    (hi : i.toNat = x₀) {fuel : ℕ} (hfuel : 8 * t + 8 < fuel) :
    ∃ h', loopJ N A B C i fuel h = some h' ∧
      Tiled (8 * t) A B C h₀ h' (setTile p x₀ 8 0 (8 * t) (8 * t)) := by
  have hlt := lt_word hsq
  obtain ⟨hnext, hcond, hend⟩ := tile_header hn (by omega)
  refine forLoop_steps
    (fun m h' => Tiled (8 * t) A B C h₀ h' (setTile p x₀ 8 0 (8 * m) (8 * t)))
    (fun m => BitVec.ofNat 32 (8 * m)) hnext hcond hend ?_ (by omega) ?_
  · intro m hm h' ht'
    have hfresh : ∀ x y, x₀ ≤ x → x < x₀ + 8 → 8 * m ≤ y → y < 8 * m + 8 →
        setTile p x₀ 8 0 (8 * m) (8 * t) x y = 0 := by
      intro x y h1 h2 h3 _
      rw [setTile, if_neg (by omega), hp x y h1 h2]
    obtain ⟨h'', hrun, ht''⟩ := loopK_tiled hn hsq hA hB ht' hx
      (show 8 * m + 8 ≤ 8 * t by omega)
      hfresh hi (toNat_ofNat_of_lt (by omega)) hfuel
    refine ⟨h'', hrun, ?_⟩
    rw [Nat.mul_succ, ← setTile_columns, Nat.zero_add]
    exact ht''
  · rw [setTile_eq_self (by omega)]
    exact ht

/-- From a cleared result on, the blocked multiplication completes all cells. -/
theorem matrixmulDrepper_tiled {N : BitVec 32} {t : ℕ} (hn : N.toNat = 8 * t)
    (hsq : 8 * t * (8 * t) < 2 ^ 32) {A B C : Mat} (hA : A ≠ C) (hB : B ≠ C) (h : Heap α)
    (hzero : ∀ e < 8 * t * (8 * t), h.elem C e = 0) {fuel : ℕ} (hfuel : 8 * t + 8 < fuel) :
    ∃ h', matrixmulDrepper N A B C fuel h = some h' ∧
      Tiled (8 * t) A B C h h' fun _ _ => 8 * t := by
  have hlt := lt_word hsq
  obtain ⟨hnext, hcond, hend⟩ := tile_header hn (by omega)
  have hstart : Tiled (8 * t) A B C h h fun _ _ => 0 :=
    ⟨fun _ _ => rfl, fun x hx y hy => hzero _ (cell_lt hx hy), fun _ hq => Or.inl hq⟩
  have hloop : ∃ h', matrixmulDrepper N A B C fuel h = some h' ∧
      Tiled (8 * t) A B C h h' (setTile (fun _ _ => 0) 0 (8 * t) 0 (8 * t) (8 * t)) := by
    refine forLoop_steps
      (fun m h' => Tiled (8 * t) A B C h h' (setTile (fun _ _ => 0) 0 (8 * m) 0 (8 * t) (8 * t)))
      (fun m => BitVec.ofNat 32 (8 * m)) hnext hcond hend ?_ (by omega) ?_
    · intro m hm h' ht'
      have hfresh : ∀ x y, 8 * m ≤ x → x < 8 * m + 8 →
          setTile (fun _ _ => 0) 0 (8 * m) 0 (8 * t) (8 * t) x y = 0 := by
        intro x y h1 _
        rw [setTile, if_neg (by omega)]
      obtain ⟨h'', hrun, ht''⟩ := loopJ_tiled hn hsq hA hB ht'
        (show 8 * m + 8 ≤ 8 * t by omega) hfresh
        (toNat_ofNat_of_lt (by omega)) hfuel
      refine ⟨h'', hrun, ?_⟩
      rw [Nat.mul_succ, ← setTile_rows, Nat.zero_add]
      exact ht''
    · rw [setTile_eq_self (by omega)]
      exact hstart
  obtain ⟨h', hrun, ht'⟩ := hloop
  exact ⟨h', hrun, ht'.congr fun x hx y hy => if_pos (by omega)⟩

end

section

variable {α : Type*} [Zero α] [Add α] [Mul α]

omit [Zero α] [Add α] [Mul α] in
theorem InBounds.trans {n : ℕ} {h₀ h h' : Heap α} (h1 : InBounds n h₀ h) (h2 : InBounds n h h') :
    InBounds n h₀ h' := by
  intro q hq
  rcases h2 q hq with hq | hq
  · exact h1 q hq
  · exact Or.inr hq

omit [Zero α] [Add α] [Mul α] in
theorem InBounds.cons {n : ℕ} {h₀ h h' : Heap α} {q : Ptr} (h1 : InBounds n h₀ h)
    (hq : q.2 < n * n) (hlog : h'.log = q :: h.log) : InBounds n h₀ h' := by
  intro r hr
  rw [hlog] at hr
  rcases List.mem_cons.1 hr with rfl | hr
  · exact Or.inr hq
  · exact h1 r hr

/-- A header that counts in ones up to `N`. -/
theorem unit_header {N : BitVec 32} {n : ℕ} (hn : N.toNat = n) (hlt : n < 2 ^ 32) :
    (∀ m < n, BitVec.ofNat 32 m + 1 = BitVec.ofNat 32 (m + 1)) ∧
      (∀ m < n, (BitVec.ofNat 32 m).ult N = true) ∧
      (BitVec.ofNat 32 n).ult N = false := by
  refine ⟨fun m _ => ofNat_add_one m, fun m hm => ?_, ?_⟩
  · rw [ult_ofNat (by omega), hn]
    exact decide_eq_true hm
  · rw [ult_ofNat hlt, hn]
    exact decide_eq_false (lt_irrefl n)

theorem naiveK_dot {N : BitVec 32} {n : ℕ} (hn : N.toNat = n) (hsq : n * n < 2 ^ 32)
    {A B : Mat} (h : Heap α) {x y : ℕ} (hx : x < n) (hy : y < n) {i j : BitVec 32}
    (hi : i.toNat = x) (hj : j.toNat = y) {fuel : ℕ} (hfuel : n < fuel) :
    ∃ r, naiveK N A B i j fuel h = some r ∧ r.1 = dot (h.elem A) (h.elem B) n x y n ∧
      r.2.elem = h.elem ∧ InBounds n h r.2 := by
  obtain ⟨hnext, hcond, hend⟩ := unit_header hn (by have := lt_word hsq; omega)
  refine forLoop_steps (fun k (r : α × Heap α) => r.1 = dot (h.elem A) (h.elem B) n x y k ∧
    r.2.elem = h.elem ∧ InBounds n h r.2) (fun m => BitVec.ofNat 32 m) hnext hcond hend
    ?_ hfuel ⟨rfl, rfl, fun _ hq => Or.inl hq⟩
  rintro k hk ⟨sum, h'⟩ ⟨hsum, helem, hin⟩
  simp only at hsum helem hin
  have hk' := toNat_ofNat_of_lt (show k < 2 ^ 32 by have := lt_word hsq; omega)
  have ha := toNat_index hn hsq hi hk' hx (by omega)
  have hb := toNat_index hn hsq hk' hj (by omega) hy
  refine ⟨_, rfl, ?_, helem, ?_⟩
  · simp only [ha, hb, hsum, helem, dot]
  · exact (hin.cons (q := (A, _)) (by rw [ha]; exact cell_lt hx (by omega)) rfl).cons
      (q := (B, _)) (by rw [hb]; exact cell_lt (by omega) hy) rfl

/-- Since `h₀` only `C` has changed, and the cells in `done` hold their product. -/
structure Filled (n : ℕ) (A B C : Mat) (h₀ h : Heap α) (done : ℕ → ℕ → Prop) : Prop where
  frame : ∀ m, m ≠ C → h.elem m = h₀.elem m
  cells : ∀ x < n, ∀ y < n, done x y →
    h.elem C (x * n + y) = dot (h₀.elem A) (h₀.elem B) n x y n
  bounds : InBounds n h₀ h

theorem naiveJ_filled {N : BitVec 32} {n : ℕ} (hn : N.toNat = n) (hsq : n * n < 2 ^ 32)
    {A B C : Mat} (hA : A ≠ C) (hB : B ≠ C) {h₀ h : Heap α} {x : ℕ} (hx : x < n)
    (hf : Filled n A B C h₀ h fun x' _ => x' < x) {i : BitVec 32} (hi : i.toNat = x)
    {fuel : ℕ} (hfuel : n < fuel) :
    ∃ h', naiveJ N A B C i fuel h = some h' ∧ Filled n A B C h₀ h' fun x' _ => x' < x + 1 := by
  obtain ⟨hnext, hcond, hend⟩ := unit_header hn (by have := lt_word hsq; omega)
  have hloop : ∃ h', naiveJ N A B C i fuel h = some h' ∧
      Filled n A B C h₀ h' fun x' y' => x' < x ∨ (x' = x ∧ y' < n) := by
    refine forLoop_steps
      (fun k h' => Filled n A B C h₀ h' fun x' y' => x' < x ∨ (x' = x ∧ y' < k))
      (fun m => BitVec.ofNat 32 m) hnext hcond hend ?_ hfuel ?_
    · intro k hk h' hf'
      have hk' := toNat_ofNat_of_lt (show k < 2 ^ 32 by have := lt_word hsq; omega)
      have hc := toNat_index hn hsq hi hk' hx (by omega)
      obtain ⟨r, hrun, hdot, helem, hin⟩ := naiveK_dot hn hsq (A := A) (B := B) h' hx hk hi hk'
        hfuel
      refine ⟨_, by simp only [hrun]; rfl, fun m hm => ?_, fun x' hx' y' hy' hd => ?_, ?_⟩
      · simp [Heap.store, hm, helem, hf'.frame m hm]
      · simp only [Heap.store, hc, Function.update_self]
        by_cases heq : x' = x ∧ y' = k
        · obtain ⟨rfl, rfl⟩ := heq
          rw [Function.update_self, hdot, hf'.frame A hA, hf'.frame B hB]
        · rw [Function.update_of_ne fun h => heq (cell_inj hy' hk h), helem]
          exact hf'.cells x' hx' y' hy' (by omega)
      · exact (hf'.bounds.trans hin).cons (q := (C, _))
          (by rw [hc]; exact cell_lt hx (by omega)) rfl
    · exact ⟨hf.frame, fun x' hx' y' hy' hd => hf.cells x' hx' y' hy' (by omega), hf.bounds⟩
  obtain ⟨h', hrun, hf'⟩ := hloop
  exact ⟨h', hrun, hf'.frame, fun x' hx' y' hy' hd => hf'.cells x' hx' y' hy' (by omega),
    hf'.bounds⟩

theorem matrixmulNaive_filled {N : BitVec 32} {n : ℕ} (hn : N.toNat = n) (hsq : n * n < 2 ^ 32)
    {A B C : Mat} (hA : A ≠ C) (hB : B ≠ C) (h : Heap α) {fuel : ℕ} (hfuel : n < fuel) :
    ∃ h', matrixmulNaive N A B C fuel h = some h' ∧
      Filled n A B C h h' fun x _ => x < n := by
  obtain ⟨hnext, hcond, hend⟩ := unit_header hn (by have := lt_word hsq; omega)
  refine forLoop_steps (fun k h' => Filled n A B C h h' fun x _ => x < k)
    (fun m => BitVec.ofNat 32 m) hnext hcond hend ?_ hfuel
    ⟨fun _ _ => rfl, fun _ _ _ _ hx => absurd hx (Nat.not_lt_zero _), fun _ hq => Or.inl hq⟩
  intro k hk h' hf'
  exact naiveJ_filled hn hsq hA hB hk hf' (toNat_ofNat_of_lt (by have := lt_word hsq; omega)) hfuel

end

/-- Blocked and naive multiplication agree on every dimension that is a multiple
of eight and whose square fits into 32 bits: on heaps with the same `A` and `B`
they return equal results, change nothing else and stay below `N * N`. -/
theorem drepper_eq_naive {α : Type*} [Zero α] [AddCommMagma α] [CommMagma α] (N : BitVec 32)
    (h8 : 8 ∣ N.toNat) (hsq : N.toNat * N.toNat < 2 ^ 32) (h h' : Heap α)
    (hA : h'.elem .a = h.elem .a) (hB : h'.elem .b = h.elem .b)
    (hzero : ∀ e < N.toNat * N.toNat, h.elem .c0 e = 0) (fuel : ℕ) (hfuel : N.toNat + 8 < fuel) :
    ∃ r r', matrixmulDrepper N .a .b .c0 fuel h = some r ∧
      matrixmulNaive N .a .b .c1 fuel h' = some r' ∧
      (∀ e < N.toNat * N.toNat, r.elem .c0 e = r'.elem .c1 e) ∧
      (∀ m, m ≠ .c0 → r.elem m = h.elem m) ∧ (∀ m, m ≠ .c1 → r'.elem m = h'.elem m) ∧
      (∀ q ∈ r.log, q ∈ h.log ∨ q.2 < N.toNat * N.toNat) ∧
      (∀ q ∈ r'.log, q ∈ h'.log ∨ q.2 < N.toNat * N.toNat) := by
  obtain ⟨t, ht⟩ := h8
  obtain ⟨r, hrun, htiled⟩ := matrixmulDrepper_tiled ht (ht ▸ hsq) (A := .a) (B := .b)
    (by decide) (by decide) h (ht ▸ hzero) (ht ▸ hfuel)
  obtain ⟨r', hrun', hfilled⟩ := matrixmulNaive_filled rfl hsq (A := .a) (B := .b) (C := .c1)
    (by decide) (by decide) h' (show N.toNat < fuel by omega)
  refine ⟨r, r', hrun, hrun', fun e he => ?_, htiled.frame, hfilled.frame,
    ht ▸ htiled.bounds, hfilled.bounds⟩
  have hn : 0 < N.toNat := Nat.pos_of_ne_zero fun h0 => by simp [h0] at he
  have hx : e / N.toNat < N.toNat := Nat.div_lt_of_lt_mul he
  have hy : e % N.toNat < N.toNat := Nat.mod_lt e hn
  have hcell : e / N.toNat * N.toNat + e % N.toNat = e := by
    rw [Nat.mul_comm]
    exact Nat.div_add_mod e N.toNat
  have h1 := htiled.cells _ (ht ▸ hx) _ (ht ▸ hy)
  have h2 := hfilled.cells _ hx _ hy hx
  rw [← ht, hcell] at h1
  rw [hcell, hA, hB] at h2
  exact h1.trans h2.symm

theorem drepper_eq_naive_eight :
    let h : Heap ℤ := ⟨fun m e => match m with | .a => e | .b => 7 - e | _ => 0, []⟩
    ∃ r r', matrixmulDrepper 8 .a .b .c0 17 h = some r ∧
      matrixmulNaive 8 .a .b .c1 17 h = some r' ∧
      ∀ e < 64, r.elem .c0 e = r'.elem .c1 e := by
  intro h
  obtain ⟨r, r', hr, hr', heq, -⟩ :=
    drepper_eq_naive 8 (by decide) (by decide) h h rfl rfl (fun _ _ => rfl) 17 (by decide)
  exact ⟨r, r', hr, hr', heq⟩

end SyscallAdvent.Matrix
