import Mathlib.Data.Matrix.Mul
import SyscallAdvent.Proofs.MatrixBounds

/-! The multiplications as matrix algebra, where the arithmetic is exact. The
blocked one adds the product to whatever the result matrix holds: a run on any
result matrix follows the run on a cleared one, from which it differs by the
initial contents in every state. `main` clears its matrices first, so both hold
the product in the end and the comparison finds no difference. -/

namespace SyscallAdvent.Matrix

open CLoop

section

variable {α : Type*}

/-- The first `n * n` elements as a matrix, row by row. -/
def Heap.toMatrix (h : Heap α) (m : Mat) (n : ℕ) : Matrix (Fin n) (Fin n) α :=
  Matrix.of fun x y => h.elem m (x * n + y)

/-- Two heaps of which the second has `base` more in `C`. -/
structure Shifted [Add α] (C : Mat) (base : ℕ → α) (h h' : Heap α) : Prop where
  frame : ∀ m, m ≠ C → h'.elem m = h.elem m
  cells : ∀ e, h'.elem C e = base e + h.elem C e

theorem Shifted.load [Add α] {C : Mat} {base : ℕ → α} {h h' : Heap α} (hs : Shifted C base h h')
    (q : Ptr) : Shifted C base (h.load q).2 (h'.load q).2 :=
  ⟨hs.frame, hs.cells⟩

theorem Shifted.store [Add α] {C : Mat} {base : ℕ → α} {h h' : Heap α}
    (hs : Shifted C base h h') (e : ℕ) {v v' : α} (hv : v' = base e + v) :
    Shifted C base (h.store (C, e) v) (h'.store (C, e) v') := by
  refine ⟨fun m hm => by simp [Heap.store, hm, hs.frame m hm], fun d => ?_⟩
  rcases eq_or_ne d e with rfl | hne
  · simpa [Heap.store] using hv
  · simpa [Heap.store, hne] using hs.cells d

end

section

variable {α : Type*} [NonUnitalNonAssocCommSemiring α] {C : Mat} {base : ℕ → α}
  {h h' r : Heap α}

theorem addProducts_shifted {B : Mat} (hB : B ≠ C) (hs : Shifted C base h h') (rres rmul2 : ℕ)
    (m1d : α) (j2 : BitVec 32) :
    Shifted C base (addProducts B C rres rmul2 m1d j2 h)
      (addProducts B C rres rmul2 m1d j2 h') := by
  have hone : ∀ e d, h'.elem B e * m1d + h'.elem C d =
      base d + (h.elem B e * m1d + h.elem C d) := by
    intro e d
    rw [hs.frame B hB, hs.cells]
    exact add_left_comm _ _ _
  have hload := (((hs.load (B, rmul2 + j2.toNat)).load (B, rmul2 + j2.toNat + 1)).load
    (C, rres + j2.toNat)).load (C, rres + j2.toNat + 1)
  exact (hload.store _ (hone _ _)).store _ (hone _ _)

theorem loopJ2_shifted {B : Mat} (hB : B ≠ C) (hs : Shifted C base h h') {rres rmul2 : ℕ}
    {m1d : α} {fuel : ℕ} (hrun : loopJ2 B C rres rmul2 m1d fuel h = some r) :
    ∃ r', loopJ2 B C rres rmul2 m1d fuel h' = some r' ∧ Shifted C base r r' := by
  refine forLoop_simulation (Shifted C base) (fun j2 h h' r hs hb => ?_) hs hrun
  obtain rfl := Option.some.inj hb
  exact ⟨_, rfl, addProducts_shifted hB hs rres rmul2 m1d j2⟩

theorem loopK2_shifted {N : BitVec 32} {A B : Mat} (hA : A ≠ C) (hB : B ≠ C)
    (hs : Shifted C base h h') {rres rmul1 : ℕ} {k j : BitVec 32} {fuel : ℕ}
    (hrun : loopK2 N A B C rres rmul1 k j fuel h = some r) :
    ∃ r', loopK2 N A B C rres rmul1 k j fuel h' = some r' ∧ Shifted C base r r' := by
  refine forLoop_simulation (Shifted C base) (fun p h h' r hs hb => ?_) hs hrun
  have hread : h'.elem A = h.elem A := hs.frame A hA
  simp only [Heap.load, hread] at hb ⊢
  exact loopJ2_shifted hB (hs.load (A, rmul1 + p.1.toNat)) hb

theorem loopI2_shifted {N : BitVec 32} {A B : Mat} (hA : A ≠ C) (hB : B ≠ C)
    (hs : Shifted C base h h') {i j k : BitVec 32} {fuel : ℕ}
    (hrun : loopI2 N A B C i j k fuel h = some r) :
    ∃ r', loopI2 N A B C i j k fuel h' = some r' ∧ Shifted C base r r' := by
  unfold loopI2 at hrun ⊢
  refine forLoop_simulation (Shifted C base) (fun _ h h' r hs hb => ?_) hs hrun
  exact loopK2_shifted hA hB hs hb

theorem loopK_shifted {N : BitVec 32} {A B : Mat} (hA : A ≠ C) (hB : B ≠ C)
    (hs : Shifted C base h h') {i j : BitVec 32} {fuel : ℕ}
    (hrun : loopK N A B C i j fuel h = some r) :
    ∃ r', loopK N A B C i j fuel h' = some r' ∧ Shifted C base r r' := by
  unfold loopK at hrun ⊢
  refine forLoop_simulation (Shifted C base) (fun _ h h' r hs hb => ?_) hs hrun
  exact loopI2_shifted hA hB hs hb

theorem loopJ_shifted {N : BitVec 32} {A B : Mat} (hA : A ≠ C) (hB : B ≠ C)
    (hs : Shifted C base h h') {i : BitVec 32} {fuel : ℕ}
    (hrun : loopJ N A B C i fuel h = some r) :
    ∃ r', loopJ N A B C i fuel h' = some r' ∧ Shifted C base r r' := by
  unfold loopJ at hrun ⊢
  refine forLoop_simulation (Shifted C base) (fun _ h h' r hs hb => ?_) hs hrun
  exact loopK_shifted hA hB hs hb

theorem matrixmulDrepper_shifted {N : BitVec 32} {A B : Mat} (hA : A ≠ C) (hB : B ≠ C)
    (hs : Shifted C base h h') {fuel : ℕ} (hrun : matrixmulDrepper N A B C fuel h = some r) :
    ∃ r', matrixmulDrepper N A B C fuel h' = some r' ∧ Shifted C base r r' := by
  unfold matrixmulDrepper at hrun ⊢
  refine forLoop_simulation (Shifted C base) (fun _ h h' r hs hb => ?_) hs hrun
  exact loopJ_shifted hA hB hs hb

theorem dot_eq_sum (a b : ℕ → α) (n x y k : ℕ) :
    dot a b n x y k = ∑ l ∈ Finset.range k, a (x * n + l) * b (l * n + y) := by
  induction k with
  | zero => rfl
  | succ k ih => rw [dot, ih, Finset.sum_range_succ]

/-- Cells that hold all their products hold the product of the matrices. -/
theorem toMatrix_eq_mul {n : ℕ} {A B : Mat}
    (hcells : ∀ x < n, ∀ y < n,
      r.elem C (x * n + y) = dot (h.elem A) (h.elem B) n x y n) :
    r.toMatrix C n = h.toMatrix A n * h.toMatrix B n := by
  ext x y
  rw [Matrix.mul_apply, Heap.toMatrix, Matrix.of_apply, hcells x x.isLt y y.isLt, dot_eq_sum,
    Finset.sum_range]
  rfl

end

/-- The blocked multiplication adds the product of `A` and `B`, which may be the
same matrix, to what `C` holds, for every dimension that is a multiple of eight
and whose square fits into 32 bits. -/
theorem drepper_accumulates {α : Type*} [NonUnitalNonAssocCommSemiring α] (N : BitVec 32)
    (h8 : 8 ∣ N.toNat) (hsq : N.toNat * N.toNat < 2 ^ 32) (A B C : Mat) (hA : A ≠ C)
    (hB : B ≠ C) (h : Heap α) (fuel : ℕ) (hfuel : N.toNat + 8 < fuel) :
    ∃ r, matrixmulDrepper N A B C fuel h = some r ∧
      r.toMatrix C N.toNat =
        h.toMatrix C N.toNat + h.toMatrix A N.toNat * h.toMatrix B N.toNat ∧
      ∀ m, m ≠ C → r.elem m = h.elem m := by
  obtain ⟨t, ht⟩ := h8
  -- the same heap with a cleared result
  let h₀ : Heap α := { h with elem := Function.update h.elem C fun _ => 0 }
  have hframe : ∀ m, m ≠ C → h₀.elem m = h.elem m := fun m hm => by simp [h₀, hm]
  obtain ⟨r₀, hrun₀, htiled⟩ := matrixmulDrepper_tiled ht (ht ▸ hsq) hA hB h₀
    (fun e _ => by simp [h₀]) (ht ▸ hfuel)
  have hs : Shifted C (h.elem C) h₀ h :=
    ⟨fun m hm => (hframe m hm).symm, fun e => by simp [h₀]⟩
  obtain ⟨r, hrun, hs'⟩ := matrixmulDrepper_shifted hA hB hs hrun₀
  refine ⟨r, hrun, ?_, fun m hm => ?_⟩
  · have hmul := toMatrix_eq_mul (n := 8 * t) htiled.cells
    have hAB : h₀.toMatrix A (8 * t) * h₀.toMatrix B (8 * t) =
        h.toMatrix A (8 * t) * h.toMatrix B (8 * t) := by
      simp only [Heap.toMatrix, hframe A hA, hframe B hB]
    rw [ht, ← hAB, ← hmul]
    ext x y
    exact hs'.cells _
  · rw [hs'.frame m hm, htiled.frame m hm, hframe m hm]

theorem drepper_accumulates_eight :
    let h : Heap ℤ := ⟨fun m e => if m = .a then e else 1, []⟩
    ∃ r, matrixmulDrepper 8 .a .a .c0 17 h = some r ∧
      r.toMatrix .c0 8 = h.toMatrix .c0 8 + h.toMatrix .a 8 * h.toMatrix .a 8 := by
  intro h
  obtain ⟨r, hrun, hsum, -⟩ := drepper_accumulates 8 (by decide) (by decide) .a .a .c0
    (by decide) (by decide) h 17 (by decide)
  exact ⟨r, hrun, hsum⟩

section

variable {α : Type*}

theorem createRandomMatrix_elem [Zero α] (random : ℕ → α) (m : Mat) (dim : BitVec 32) {fuel : ℕ}
    (hfuel : allocated dim < fuel) (h : Heap α) :
    ∃ h', createRandomMatrix random m dim fuel h = some h' ∧
      (∀ m', m' ≠ m → h'.elem m' = h.elem m') ∧ ∀ e < allocated dim, h'.elem m e = random e := by
  obtain ⟨hnext, hcond, hend⟩ :=
    unit_header (N := dim * dim) (n := allocated dim) rfl (dim * dim).isLt
  refine forLoop_steps (fun k (h' : Heap α) => (∀ m', m' ≠ m → h'.elem m' = h.elem m') ∧
    ∀ e < k, h'.elem m e = random e) (n := allocated dim) (fun k => BitVec.ofNat 32 k) hnext hcond
    hend ?_ hfuel
    ⟨fun m' hm' => by simp [createMatrix, hm'], fun e he => absurd he (Nat.not_lt_zero e)⟩
  rintro k hk h' ⟨hframe, hfilled⟩
  have hk' : (BitVec.ofNat 32 k).toNat = k := toNat_ofNat_of_lt (hk.trans (dim * dim).isLt)
  refine ⟨_, rfl, fun m' hm' => by simp [Heap.store, hm', hframe m' hm'], fun e he => ?_⟩
  rcases eq_or_ne e k with rfl | hne
  · simp [Heap.store, hk']
  · simpa [Heap.store, hk', hne] using hfilled e (by omega)

/-- Where both results are equal, every comparison lets the loop go on. -/
theorem compareLoop_equal {mismatch : α → α → Bool} (hself : ∀ x, mismatch x x = false)
    {dim : BitVec 32} {fuel : ℕ} (hfuel : allocated dim < fuel) {h : Heap α}
    (heq : ∀ e < allocated dim, h.elem .c1 e = h.elem .c0 e) :
    ∃ h', compareLoop mismatch dim fuel h = some (none, h') ∧ h'.elem = h.elem := by
  obtain ⟨hnext, hcond, hend⟩ :=
    unit_header (N := dim * dim) (n := allocated dim) rfl (dim * dim).isLt
  have hloop : ∃ p, whileLoop (fun p => p.2.1.isNone && p.1.ult (dim * dim))
      (fun p => some (compareElem mismatch p)) fuel (0, none, h) = some p ∧
      p.1 = BitVec.ofNat 32 (allocated dim) ∧ p.2.1 = none ∧ p.2.2.elem = h.elem := by
    refine whileLoop_steps (fun k (p : BitVec 32 × Option ℤ × Heap α) =>
      p.1 = BitVec.ofNat 32 k ∧ p.2.1 = none ∧ p.2.2.elem = h.elem) ?_ ?_ hfuel ⟨rfl, rfl, rfl⟩
    · rintro k hk ⟨_, _, h'⟩ ⟨rfl, rfl, helem⟩
      have hk' : (BitVec.ofNat 32 k).toNat = k := toNat_ofNat_of_lt (hk.trans (dim * dim).isLt)
      have hsame : ¬ mismatch (h'.elem .c1 (BitVec.ofNat 32 k).toNat)
          (h'.elem .c0 (BitVec.ofNat 32 k).toNat) = true := by
        rw [hk', show h'.elem = h.elem from helem, heq k hk, hself]
        exact Bool.false_ne_true
      have hstep : compareElem mismatch (BitVec.ofNat 32 k, none, h') =
          (BitVec.ofNat 32 k + 1, none,
            ⟨h'.elem, (.c0, _) :: (.c1, (BitVec.ofNat 32 k).toNat) :: h'.log⟩) := if_neg hsame
      refine ⟨by simpa using hcond k hk, _, rfl, ?_⟩
      rw [hstep]
      exact ⟨hnext k hk, rfl, helem⟩
    · rintro ⟨_, _, h'⟩ ⟨rfl, rfl, -⟩
      simpa using hend
  obtain ⟨⟨i, ret, h'⟩, hrun, -, hnone, helem⟩ := hloop
  exact ⟨h', by rw [compareLoop, hrun, ← hnone]; rfl, helem⟩

end

/-- Whatever the arithmetic rounds to, as long as it commutes, every element of both
results of `main` is the sum of the same products in the same order. -/
theorem perfMain_dot {α : Type*} [Zero α] [AddCommMagma α] [CommMagma α] (random : Mat → ℕ → α)
    {mismatch : α → α → Bool} (hself : ∀ x, mismatch x x = false) (elem : Mat → ℕ → α)
    {dim : BitVec 32} (h : accepted dim = true)
    (hdim : dim.toNat = 0 ∨ 8 ≤ dim.toNat ∧ dim.toNat ≤ 2 ^ 15) :
    ∃ fuel h', perfMain random mismatch dim fuel ⟨elem, []⟩ = some (0, h') ∧
      (∀ e < dim.toNat * dim.toNat, h'.elem .a e = random .a e ∧ h'.elem .b e = random .b e) ∧
      ∀ m, m = .c0 ∨ m = .c1 → ∀ x < dim.toNat, ∀ y < dim.toNat,
        h'.elem m (x * dim.toNat + y) =
          dot (h'.elem .a) (h'.elem .b) dim.toNat x y dim.toNat := by
  obtain ⟨⟨t, ht⟩, hsq⟩ := accepted_fits h hdim
  have hall : allocated dim = dim.toNat * dim.toNat := by
    rw [allocated, BitVec.toNat_mul, Nat.mod_eq_of_lt hsq]
  obtain ⟨fuel, hfuel⟩ : ∃ fuel, 2 ^ 33 < fuel := ⟨_, Nat.lt_succ_self _⟩
  have hsize : allocated dim < fuel := by omega
  have hdim' : dim.toNat + 8 < fuel := by
    have := dim.isLt
    omega
  obtain ⟨h₁, hrun₁, -, hrandom₁⟩ :=
    createRandomMatrix_elem (random .a) .a dim hsize ⟨elem, []⟩
  obtain ⟨h₂, hrun₂, hframe₂, hrandom₂⟩ := createRandomMatrix_elem (random .b) .b dim hsize h₁
  have hzero : ∀ e < 8 * t * (8 * t),
      (createMatrix .c1 dim (createMatrix .c0 dim h₂)).elem .c0 e = 0 := by
    intro e he
    rw [← ht, ← hall] at he
    simp [createMatrix, he]
  obtain ⟨h₃, hrun₃, htiled⟩ := matrixmulDrepper_tiled ht (ht ▸ hsq) (A := .a) (B := .b)
    (by decide) (by decide) _ hzero (ht ▸ hdim')
  obtain ⟨h₄, hrun₄, hfilled⟩ := matrixmulNaive_filled rfl hsq (A := .a) (B := .b) (C := .c1)
    (by decide) (by decide) h₃ (show dim.toNat < fuel by omega)
  have hab₃ : ∀ m, m = .a ∨ m = .b → h₃.elem m = h₂.elem m := by
    rintro m (rfl | rfl) <;> rw [htiled.frame _ (by decide)] <;> simp [createMatrix]
  have hdot : ∀ m, m = .c0 ∨ m = .c1 → ∀ x < dim.toNat, ∀ y < dim.toNat,
      h₄.elem m (x * dim.toNat + y) =
        dot (h₄.elem .a) (h₄.elem .b) dim.toNat x y dim.toNat := by
    rw [hfilled.frame .a (by decide), hfilled.frame .b (by decide)]
    rintro m (rfl | rfl) x hx y hy
    · have hcell := htiled.cells x (ht ▸ hx) y (ht ▸ hy)
      rw [← htiled.frame .a (by decide), ← htiled.frame .b (by decide), ← ht] at hcell
      rw [hfilled.frame .c0 (by decide), hcell]
    · exact hfilled.cells x hx y hy hx
  have heq : ∀ e < allocated dim, h₄.elem .c1 e = h₄.elem .c0 e := by
    intro e he
    rw [hall] at he
    have hn : 0 < dim.toNat := Nat.pos_of_ne_zero fun h0 => by simp [h0] at he
    have hcell : e / dim.toNat * dim.toNat + e % dim.toNat = e := by
      rw [Nat.mul_comm]
      exact Nat.div_add_mod e dim.toNat
    have hrow := Nat.div_lt_of_lt_mul he
    have hcolumn := Nat.mod_lt e hn
    rw [← hcell, hdot .c1 (Or.inr rfl) _ hrow _ hcolumn, hdot .c0 (Or.inl rfl) _ hrow _ hcolumn]
  obtain ⟨h₅, hrun₅, helem⟩ := compareLoop_equal hself hsize heq
  refine ⟨fuel, h₅, by simp [perfMain, h, hrun₁, hrun₂, hrun₃, hrun₄, hrun₅], fun e he => ?_, ?_⟩
  · rw [← hall] at he
    rw [helem, hfilled.frame .a (by decide), hfilled.frame .b (by decide), hab₃ .a (Or.inl rfl),
      hab₃ .b (Or.inr rfl), hframe₂ .a (by decide)]
    exact ⟨hrandom₁ e he, hrandom₂ e he⟩
  · rw [helem]
    exact hdot

/-- The comparison of `main` never finds a mismatch, however the arithmetic rounds:
every accepted dimension whose accesses are inside the allocations exits with 0 and
leaves equal results. -/
theorem perfMain_no_mismatch {α : Type*} [Zero α] [AddCommMagma α] [CommMagma α]
    (random : Mat → ℕ → α) (mismatch : α → α → Bool) (hself : ∀ x, mismatch x x = false)
    (elem : Mat → ℕ → α) (dim : BitVec 32) (h : accepted dim = true)
    (hdim : dim.toNat = 0 ∨ 8 ≤ dim.toNat ∧ dim.toNat ≤ 2 ^ 15) :
    ∃ fuel h', perfMain random mismatch dim fuel ⟨elem, []⟩ = some (0, h') ∧
      h'.toMatrix .c1 dim.toNat = h'.toMatrix .c0 dim.toNat := by
  obtain ⟨fuel, h', hrun, -, hdot⟩ := perfMain_dot random hself elem h hdim
  refine ⟨fuel, h', hrun, ?_⟩
  ext x y
  simp only [Heap.toMatrix, Matrix.of_apply]
  rw [hdot .c1 (Or.inr rfl) x x.isLt y y.isLt, hdot .c0 (Or.inl rfl) x x.isLt y y.isLt]

theorem perfMain_no_mismatch_sixteen :
    ∃ fuel h', perfMain (fun _ i => (i : ℤ)) (fun c1 c0 => c1 != c0) 16 fuel ⟨fun _ _ => 0, []⟩ =
      some (0, h') := by
  obtain ⟨fuel, h', hrun, -⟩ := perfMain_no_mismatch (fun _ i => (i : ℤ)) (fun c1 c0 => c1 != c0)
    (fun x => by simp) (fun _ _ => 0) 16 (by decide) (by decide)
  exact ⟨fuel, h', hrun⟩

/-- With exact arithmetic `main` succeeds for every accepted dimension whose
accesses are inside the allocations, and both results are the product of the two
random matrices. -/
theorem perfMain_product {α : Type*} [NonUnitalNonAssocCommSemiring α] (random : Mat → ℕ → α)
    (mismatch : α → α → Bool) (hself : ∀ x, mismatch x x = false) (elem : Mat → ℕ → α)
    (dim : BitVec 32) (h : accepted dim = true)
    (hdim : dim.toNat = 0 ∨ 8 ≤ dim.toNat ∧ dim.toNat ≤ 2 ^ 15) :
    ∃ fuel h', perfMain random mismatch dim fuel ⟨elem, []⟩ = some (0, h') ∧
      (∀ e < dim.toNat * dim.toNat, h'.elem .a e = random .a e ∧ h'.elem .b e = random .b e) ∧
      h'.toMatrix .c0 dim.toNat = h'.toMatrix .a dim.toNat * h'.toMatrix .b dim.toNat ∧
      h'.toMatrix .c1 dim.toNat = h'.toMatrix .a dim.toNat * h'.toMatrix .b dim.toNat := by
  obtain ⟨fuel, h', hrun, hrandom, hdot⟩ := perfMain_dot random hself elem h hdim
  exact ⟨fuel, h', hrun, hrandom, toMatrix_eq_mul (hdot .c0 (Or.inl rfl)),
    toMatrix_eq_mul (hdot .c1 (Or.inr rfl))⟩

theorem perfMain_product_thirty_two :
    let random : Mat → ℕ → ℤ := fun _ i => i
    ∃ fuel h', perfMain random (fun c1 c0 => c1 != c0) 32 fuel ⟨fun _ _ => 0, []⟩ = some (0, h') ∧
      h'.toMatrix .c0 32 = h'.toMatrix .a 32 * h'.toMatrix .b 32 := by
  intro random
  obtain ⟨fuel, h', hrun, -, hproduct, -⟩ := perfMain_product random (fun c1 c0 => c1 != c0)
    (fun x => by simp) (fun _ _ => 0) 32 (by decide) (by decide)
  exact ⟨fuel, h', hrun, hproduct⟩

end SyscallAdvent.Matrix
