import SyscallAdvent.Proofs.MatrixProduct

/-! The dimensions that `main` accepts and the memory behind them. Between eight
and `2 ^ 15` all accesses stay inside the allocations. A smaller dimension is
overrun by the full tile, and from `2 ^ 16` on the allocation size wraps to
zero while the first tile is still read. -/

namespace SyscallAdvent.Matrix

open CLoop

section

variable {α : Type*} [Zero α] [Add α] [Mul α] {q : Ptr}

/-! Accesses are only ever added to the log. -/

omit [Zero α] in
theorem addProducts_log {B C : Mat} {rres rmul2 : ℕ} {m1d : α} {j2 : BitVec 32} {h : Heap α}
    (hq : q ∈ h.log) : q ∈ (addProducts B C rres rmul2 m1d j2 h).log := by
  simp [addProducts, Heap.load, Heap.store, hq]

omit [Zero α] in
theorem loopJ2_log {B C : Mat} {rres rmul2 : ℕ} {m1d : α} {fuel : ℕ} {h h' : Heap α}
    (hq : q ∈ h.log) (hrun : loopJ2 B C rres rmul2 m1d fuel h = some h') : q ∈ h'.log := by
  refine forLoop_invariant (fun h => q ∈ h.log) (fun j2 h h' hq hb => ?_) hq hrun
  obtain rfl := Option.some.inj hb
  exact addProducts_log hq

omit [Zero α] in
theorem loopK2_log {N : BitVec 32} {A B C : Mat} {rres rmul1 : ℕ} {k j : BitVec 32} {fuel : ℕ}
    {h h' : Heap α} (hq : q ∈ h.log) (hrun : loopK2 N A B C rres rmul1 k j fuel h = some h') :
    q ∈ h'.log :=
  forLoop_invariant (fun h => q ∈ h.log)
    (fun _ _ _ hq hb => loopJ2_log (List.mem_cons_of_mem _ hq) hb) hq hrun

omit [Zero α] in
theorem loopI2_log {N : BitVec 32} {A B C : Mat} {i j k : BitVec 32} {fuel : ℕ} {h h' : Heap α}
    (hq : q ∈ h.log) (hrun : loopI2 N A B C i j k fuel h = some h') : q ∈ h'.log :=
  forLoop_invariant (fun h => q ∈ h.log) (fun _ _ _ hq hb => loopK2_log hq hb) hq hrun

omit [Zero α] in
theorem loopK_log {N : BitVec 32} {A B C : Mat} {i j : BitVec 32} {fuel : ℕ} {h h' : Heap α}
    (hq : q ∈ h.log) (hrun : loopK N A B C i j fuel h = some h') : q ∈ h'.log :=
  forLoop_invariant (fun h => q ∈ h.log) (fun _ _ _ hq hb => loopI2_log hq hb) hq hrun

omit [Zero α] in
theorem loopJ_log {N : BitVec 32} {A B C : Mat} {i : BitVec 32} {fuel : ℕ} {h h' : Heap α}
    (hq : q ∈ h.log) (hrun : loopJ N A B C i fuel h = some h') : q ∈ h'.log :=
  forLoop_invariant (fun h => q ∈ h.log) (fun _ _ _ hq hb => loopK_log hq hb) hq hrun

theorem naiveK_log {N : BitVec 32} {A B : Mat} {i j : BitVec 32} {fuel : ℕ} {h : Heap α}
    {r : α × Heap α} (hq : q ∈ h.log) (hrun : naiveK N A B i j fuel h = some r) :
    q ∈ r.2.log := by
  refine forLoop_invariant (fun r : α × Heap α => q ∈ r.2.log) (fun k r r' hq hb => ?_) hq hrun
  obtain rfl := Option.some.inj hb
  exact List.mem_cons_of_mem _ (List.mem_cons_of_mem _ hq)

theorem naiveJ_log {N : BitVec 32} {A B C : Mat} {i : BitVec 32} {fuel : ℕ} {h h' : Heap α}
    (hq : q ∈ h.log) (hrun : naiveJ N A B C i fuel h = some h') : q ∈ h'.log := by
  refine forLoop_invariant (fun h => q ∈ h.log) (fun j h h' hq hb => ?_) hq hrun
  obtain ⟨r, hr, rfl⟩ := Option.map_eq_some_iff.1 hb
  exact List.mem_cons_of_mem _ (naiveK_log hq hr)

theorem matrixmulNaive_log {N : BitVec 32} {A B C : Mat} {fuel : ℕ} {h h' : Heap α}
    (hq : q ∈ h.log) (hrun : matrixmulNaive N A B C fuel h = some h') : q ∈ h'.log :=
  forLoop_invariant (fun h => q ∈ h.log) (fun _ _ _ hq hb => naiveJ_log hq hb) hq hrun

omit [Zero α] [Add α] [Mul α] in
/-- A comparison reads the two elements, and stops the loop or moves it on. -/
theorem compareElem_cases (mismatch : α → α → Bool) (i : BitVec 32) (ret : Option ℤ)
    (h : Heap α) :
    let h' : Heap α := ⟨h.elem, (.c0, i.toNat) :: (.c1, i.toNat) :: h.log⟩
    compareElem mismatch (i, ret, h) = (i, some (-1), h') ∨
      compareElem mismatch (i, ret, h) = (i + 1, none, h') := by
  by_cases hm : mismatch (h.elem .c1 i.toNat) (h.elem .c0 i.toNat) = true
  · exact Or.inl (if_pos hm)
  · exact Or.inr (if_neg hm)

omit [Zero α] [Add α] [Mul α] in
theorem compareLoop_log {mismatch : α → α → Bool} {dim : BitVec 32} {fuel : ℕ} {h : Heap α}
    {r : Option ℤ × Heap α} (hq : q ∈ h.log) (hrun : compareLoop mismatch dim fuel h = some r) :
    q ∈ r.2.log := by
  obtain ⟨p, hw, rfl⟩ := Option.map_eq_some_iff.1 hrun
  refine (whileLoop_invariant (fun p : BitVec 32 × Option ℤ × Heap α => q ∈ p.2.2.log)
    ?_ hq hw).1
  rintro ⟨i, ret, h⟩ p' hq - hb
  obtain rfl := Option.some.inj hb
  have hq' := List.mem_cons_of_mem (.c0, i.toNat) (List.mem_cons_of_mem (.c1, i.toNat) hq)
  rcases compareElem_cases mismatch i ret h with he | he <;> rw [he] <;> exact hq'

omit [Zero α] in
/-- Every row of the first tile of `A` is read, whether or not the matrix has that many rows. -/
theorem drepper_reads {N : BitVec 32} (hN : 0 < N.toNat) {A B C : Mat} {m : ℕ} (hm : m < 8)
    {fuel : ℕ} {h h' : Heap α} (hrun : matrixmulDrepper N A B C fuel h = some h') :
    (A, m * N.toNat) ∈ h'.log := by
  have hzero : ∀ k ≤ 0, (0 : BitVec 32).ult N = true := fun _ _ => by
    simpa [BitVec.ult] using hN
  have hrow : ∀ h h' : Heap α, loopI2 N A B C 0 0 0 fuel h = some h' →
      (A, m * N.toNat) ∈ h'.log := by
    intro h h' hI
    rw [loopI2, show ((0 : BitVec 32) * N + 0).toNat = 0 * N.toNat by simp] at hI
    refine forLoop_establishes (fun h => (A, m * N.toNat) ∈ h.log)
      (fun k => (BitVec.ofNat 32 k, k * N.toNat, k * N.toNat)) m hI (fun k _ => ?_)
      (fun k hk => ?_) (fun h h' hK => ?_) fun _ _ _ => loopK2_log
    · exact Prod.ext (ofNat_add_one k) (Prod.ext (Nat.succ_mul k _).symm (Nat.succ_mul k _).symm)
    · exact ult_SM (by omega)
    · exact forLoop_establishes (fun h => (A, m * N.toNat) ∈ h.log) (fun _ => (0, _)) 0 hK
        (by simp) (fun _ _ => rfl) (fun _ _ => loopJ2_log (List.mem_cons_self ..))
        fun _ _ _ hq => loopJ2_log (List.mem_cons_of_mem _ hq)
  have hk : ∀ h h' : Heap α, loopK N A B C 0 0 fuel h = some h' → (A, m * N.toNat) ∈ h'.log :=
    fun h h' hK => forLoop_establishes (fun h => (A, m * N.toNat) ∈ h.log) (fun _ => 0) 0 hK
      (by simp) hzero hrow fun _ _ _ => loopI2_log
  have hj : ∀ h h' : Heap α, loopJ N A B C 0 fuel h = some h' → (A, m * N.toNat) ∈ h'.log :=
    fun h h' hJ => forLoop_establishes (fun h => (A, m * N.toNat) ∈ h.log) (fun _ => 0) 0 hJ
      (by simp) hzero hk fun _ _ _ => loopK_log
  exact forLoop_establishes (fun h => (A, m * N.toNat) ∈ h.log) (fun _ => 0) 0 hrun
    (by simp) hzero hj fun _ _ _ => loopJ_log

/-! Every loop ends, whatever it does to the matrices. -/

omit [Zero α] in
theorem loopI2_returns (N : BitVec 32) (A B C : Mat) (i j k : BitVec 32) {fuel : ℕ}
    (hfuel : 8 < fuel) (h : Heap α) : ∃ h', loopI2 N A B C i j k fuel h = some h' := by
  have hunit : ∀ m < 8, (BitVec.ofNat 32 m).ult SM = true := by decide
  have hJ2 : ∀ rres rmul2 (m1d : α) h, ∃ h', loopJ2 B C rres rmul2 m1d fuel h = some h' := by
    intro rres rmul2 m1d h
    exact forLoop_returns (n := 4) (fun m => BitVec.ofNat 32 (2 * m)) (fun m _ => ofNat_succ 2 m)
      (by decide) (by decide) (fun _ _ => ⟨_, rfl⟩) (by omega) h
  have hK2 : ∀ rres rmul1 (h : Heap α), ∃ h', loopK2 N A B C rres rmul1 k j fuel h = some h' := by
    intro rres rmul1 h
    unfold loopK2
    refine forLoop_returns (n := 8) (fun m => (BitVec.ofNat 32 m, (k * N + j).toNat + N.toNat * m))
      (fun m _ => ?_) hunit rfl (fun p h => hJ2 rres p.2 _ _) hfuel h
    exact Prod.ext (ofNat_add_one m) (Nat.add_assoc ..)
  unfold loopI2
  refine forLoop_returns (n := 8)
    (fun m => (BitVec.ofNat 32 m, (i * N + j).toNat + N.toNat * m, (i * N + k).toNat + N.toNat * m))
    (fun m _ => ?_) hunit rfl (fun p h => hK2 p.2.1 p.2.2 h) hfuel h
  exact Prod.ext (ofNat_add_one m) (Prod.ext (Nat.add_assoc ..) (Nat.add_assoc ..))

omit [Zero α] in
theorem matrixmulDrepper_returns {N : BitVec 32} (hN : N.toNat ≤ 2 ^ 31) (A B C : Mat)
    {fuel : ℕ} (hfuel : N.toNat + 8 < fuel) (h : Heap α) :
    ∃ h', matrixmulDrepper N A B C fuel h = some h' := by
  have hcond : ∀ m < (N.toNat + 7) / 8, (BitVec.ofNat 32 (8 * m)).ult N = true := by
    intro m hm
    rw [ult_ofNat (by omega)]
    exact decide_eq_true (by omega)
  have hend : (BitVec.ofNat 32 (8 * ((N.toNat + 7) / 8))).ult N = false := by
    rw [ult_ofNat (by omega)]
    exact decide_eq_false (by omega)
  have hK : ∀ i j (h : Heap α), ∃ h', loopK N A B C i j fuel h = some h' := fun i j h =>
    forLoop_returns (fun m => BitVec.ofNat 32 (8 * m)) (fun m _ => ofNat_succ 8 m) hcond hend
      (fun k => loopI2_returns N A B C i j k (by omega)) (by omega) h
  have hJ : ∀ i (h : Heap α), ∃ h', loopJ N A B C i fuel h = some h' := fun i h =>
    forLoop_returns (fun m => BitVec.ofNat 32 (8 * m)) (fun m _ => ofNat_succ 8 m) hcond hend
      (hK i) (by omega) h
  exact forLoop_returns (fun m => BitVec.ofNat 32 (8 * m)) (fun m _ => ofNat_succ 8 m) hcond hend
    hJ (by omega) h

theorem matrixmulNaive_returns (N : BitVec 32) (A B C : Mat) {fuel : ℕ} (hfuel : N.toNat < fuel)
    (h : Heap α) : ∃ h', matrixmulNaive N A B C fuel h = some h' := by
  obtain ⟨hnext, hcond, hend⟩ := unit_header (N := N) rfl N.isLt
  have hK : ∀ i j (h : Heap α), ∃ r, naiveK N A B i j fuel h = some r := fun i j h =>
    forLoop_returns (fun m => BitVec.ofNat 32 m) hnext hcond hend (fun _ _ => ⟨_, rfl⟩) hfuel _
  have hJ : ∀ i (h : Heap α), ∃ h', naiveJ N A B C i fuel h = some h' := fun i h =>
    forLoop_returns (fun m => BitVec.ofNat 32 m) hnext hcond hend (fun j h => by
      obtain ⟨r, hr⟩ := hK i j h
      exact ⟨_, by rw [hr]; rfl⟩) hfuel h
  exact forLoop_returns (fun m => BitVec.ofNat 32 m) hnext hcond hend hJ hfuel h

omit [Add α] [Mul α] in
/-- Filling a matrix stays inside its allocation, whatever the dimension. -/
theorem createRandomMatrix_bounds (random : ℕ → α) (m : Mat) (dim : BitVec 32) {fuel : ℕ}
    (hfuel : allocated dim < fuel) (h : Heap α) :
    ∃ h', createRandomMatrix random m dim fuel h = some h' ∧
      ∀ q ∈ h'.log, q ∈ h.log ∨ q.2 < allocated dim := by
  obtain ⟨hnext, hcond, hend⟩ :=
    unit_header (N := dim * dim) (n := allocated dim) rfl (dim * dim).isLt
  refine forLoop_steps (fun _ (h' : Heap α) => ∀ q ∈ h'.log, q ∈ h.log ∨ q.2 < allocated dim)
    (n := allocated dim) (fun k => BitVec.ofNat 32 k) hnext hcond ?_ ?_ hfuel
    fun _ hq => Or.inl hq
  · exact hend
  intro k hk h' hin
  refine ⟨_, rfl, fun q hq => ?_⟩
  rcases List.mem_cons.1 hq with rfl | hq
  · right
    rwa [toNat_ofNat_of_lt (hk.trans (dim * dim).isLt)]
  · exact hin q hq

omit [Zero α] [Add α] [Mul α] in
theorem compareLoop_bounds (mismatch : α → α → Bool) (dim : BitVec 32) {fuel : ℕ}
    (hfuel : allocated dim + 1 < fuel) (h : Heap α) :
    ∃ r, compareLoop mismatch dim fuel h = some r ∧
      ∀ q ∈ r.2.log, q ∈ h.log ∨ q.2 < allocated dim := by
  let left (p : BitVec 32 × Option ℤ × Heap α) : ℕ :=
    if p.2.1.isNone then allocated dim + 1 - p.1.toNat else 0
  have hstep : ∀ p : BitVec 32 × Option ℤ × Heap α,
      (∀ q ∈ p.2.2.log, q ∈ h.log ∨ q.2 < allocated dim) →
      (p.2.1.isNone && p.1.ult (dim * dim)) = true → ∃ p', some (compareElem mismatch p) = some p' ∧
        (∀ q ∈ p'.2.2.log, q ∈ h.log ∨ q.2 < allocated dim) ∧ left p' < left p := by
    rintro ⟨i, ret, h'⟩ hin hc
    obtain ⟨hnone, hult⟩ := Bool.and_eq_true_iff.1 hc
    have hlt : i.toNat < allocated dim := by simpa [BitVec.ult, allocated] using hult
    have hinc : (i + 1).toNat = i.toNat + 1 := by
      have := (dim * dim).isLt
      exact BitVec.toNat_add_of_lt (show i.toNat + 1 < 2 ^ 32 by unfold allocated at hlt; omega)
    have hin' : ∀ q ∈ (.c0, i.toNat) :: (.c1, i.toNat) :: h'.log,
        q ∈ h.log ∨ q.2 < allocated dim := by
      simp only [List.forall_mem_cons]
      exact ⟨Or.inr hlt, Or.inr hlt, hin⟩
    have hleft : left (i, ret, h') = allocated dim + 1 - i.toNat := if_pos hnone
    rcases compareElem_cases mismatch i ret h' with he | he
    · refine ⟨_, rfl, by rwa [he], ?_⟩
      rw [he, hleft, show left _ = 0 from rfl]
      omega
    · refine ⟨_, rfl, by rwa [he], ?_⟩
      rw [he, hleft, show left _ = allocated dim + 1 - (i + 1).toNat from rfl]
      omega
  obtain ⟨p, hw, hin, -⟩ := whileLoop_variant _ left hstep
    (show left (0, none, h) < fuel by simpa [left] using hfuel) fun _ hq => Or.inl hq
  exact ⟨p.2, by rw [compareLoop, hw]; rfl, hin⟩

end

/-- The dimensions that pass the check: zero and the powers of two. -/
theorem accepted_cases {dim : BitVec 32} (h : accepted dim = true) :
    dim.toNat = 0 ∨ ∃ k < 32, dim.toNat = 2 ^ k := by
  rcases Nat.eq_zero_or_pos dim.toNat with h0 | hpos
  · exact Or.inl h0
  right
  have hsub : (dim - 1).toNat = dim.toNat - 1 :=
    BitVec.toNat_sub_of_le (show (1 : BitVec 32).toNat ≤ dim.toNat from hpos)
  have hand : dim.toNat &&& (dim.toNat - 1) = 0 := by
    rw [← hsub, ← BitVec.toNat_and]
    simpa [accepted] using congrArg BitVec.toNat (beq_iff_eq.1 h)
  obtain ⟨k, hk⟩ := (Nat.and_sub_one_eq_zero_iff_isPowerOfTwo hpos.ne').1 hand
  refine ⟨k, ?_, hk⟩
  by_contra hge
  have := Nat.pow_le_pow_right (show 0 < 2 by decide) (Nat.le_of_not_lt hge)
  have := dim.isLt
  omega

theorem accepted_le {dim : BitVec 32} (h : accepted dim = true) : dim.toNat ≤ 2 ^ 31 := by
  rcases accepted_cases h with h0 | ⟨k, hk, hdim⟩
  · omega
  · rw [hdim]
    exact Nat.pow_le_pow_right (by decide) (by omega)

/-- The tile fits, and the allocation size does not wrap. -/
theorem accepted_fits {dim : BitVec 32} (h : accepted dim = true)
    (hdim : dim.toNat = 0 ∨ 8 ≤ dim.toNat ∧ dim.toNat ≤ 2 ^ 15) :
    8 ∣ dim.toNat ∧ dim.toNat * dim.toNat < 2 ^ 32 := by
  rcases hdim with h0 | ⟨h8, hle⟩
  · simp [h0]
  have hsq := Nat.mul_le_mul hle hle
  refine ⟨?_, by omega⟩
  rcases accepted_cases h with h0 | ⟨k, -, hk⟩
  · omega
  · rw [hk] at h8 ⊢
    have hk3 : 2 ^ 3 ≤ 2 ^ k := h8
    exact pow_dvd_pow 2 ((Nat.pow_le_pow_iff_right (by decide : 1 < 2)).1 hk3)

/-- A row of the first tile lies outside the allocation. -/
theorem accepted_overrun {dim : BitVec 32} (h : accepted dim = true)
    (hdim : ¬ (dim.toNat = 0 ∨ 8 ≤ dim.toNat ∧ dim.toNat ≤ 2 ^ 15)) :
    ∃ m < 8, allocated dim ≤ m * dim.toNat := by
  rcases accepted_cases h with h0 | ⟨k, hk, hpow⟩
  · exact absurd (Or.inl h0) hdim
  unfold allocated
  rw [BitVec.toNat_mul]
  rcases Nat.lt_or_ge dim.toNat 8 with hlt | hge
  · exact ⟨dim.toNat, hlt, Nat.mod_le ..⟩
  · have hk16 : 16 ≤ k := by
      by_contra hk15
      have := Nat.pow_le_pow_right (show 0 < 2 by decide) (show k ≤ 15 by omega)
      omega
    have hdvd : 2 ^ 32 ∣ dim.toNat * dim.toNat := by
      rw [hpow, ← pow_add]
      exact pow_dvd_pow 2 (by omega)
    exact ⟨0, by decide, by rw [Nat.mod_eq_zero_of_dvd hdvd]; exact Nat.zero_le _⟩

/-- `main` with this dimension returns, and all elements it accessed were allocated. -/
def DimensionSafe {α : Type*} [Zero α] [Add α] [Mul α] (random : Mat → ℕ → α)
    (mismatch : α → α → Bool) (elem : Mat → ℕ → α) (dim : BitVec 32) : Prop :=
  ∃ fuel ret h, perfMain random mismatch dim fuel ⟨elem, []⟩ = some (ret, h) ∧
    ∀ q ∈ h.log, q.2 < allocated dim

section

variable {α : Type*} [Zero α] [Add α] [Mul α] (random : Mat → ℕ → α) (mismatch : α → α → Bool)
  (elem : Mat → ℕ → α) {dim : BitVec 32}

theorem perfMain_returns (h : accepted dim = true) :
    ∃ fuel r, perfMain random mismatch dim fuel ⟨elem, []⟩ = some r := by
  have hall := (dim * dim).isLt
  have hle := accepted_le h
  obtain ⟨fuel, hfuel⟩ : ∃ fuel, 2 ^ 33 < fuel := ⟨_, Nat.lt_succ_self _⟩
  have hsize : allocated dim < fuel := by unfold allocated; omega
  have hsize' : allocated dim + 1 < fuel := by unfold allocated; omega
  have hdim : dim.toNat + 8 < fuel := by omega
  have hdim' : dim.toNat < fuel := by omega
  refine ⟨fuel, ?_⟩
  obtain ⟨h₁, hrun₁, -⟩ := createRandomMatrix_bounds (random .a) .a dim hsize ⟨elem, []⟩
  obtain ⟨h₂, hrun₂, -⟩ := createRandomMatrix_bounds (random .b) .b dim hsize h₁
  obtain ⟨h₃, hrun₃⟩ := matrixmulDrepper_returns hle .a .b .c0 hdim
    (createMatrix .c1 dim (createMatrix .c0 dim h₂))
  obtain ⟨h₄, hrun₄⟩ := matrixmulNaive_returns dim .a .b .c1 hdim' h₃
  obtain ⟨r, hrun₅, -⟩ := compareLoop_bounds mismatch dim hsize' h₄
  exact ⟨(r.1.getD 0, r.2), by simp [perfMain, h, hrun₁, hrun₂, hrun₃, hrun₄, hrun₅]⟩

/-- Each run reads an element outside the allocation. -/
theorem perfMain_overruns (h : accepted dim = true)
    (hdim : ¬ (dim.toNat = 0 ∨ 8 ≤ dim.toNat ∧ dim.toNat ≤ 2 ^ 15)) :
    ¬ DimensionSafe random mismatch elem dim := by
  intro hsafe
  obtain ⟨fuel, ret, h', hrun, hin⟩ := hsafe
  obtain ⟨m, hm, hover⟩ := accepted_overrun h hdim
  simp only [perfMain, h, if_true, Option.bind_eq_bind, Option.bind_eq_some_iff] at hrun
  obtain ⟨h₁, -, h₂, -, h₃, hdrepper, h₄, hnaive, r, hcompare, heq⟩ := hrun
  have hread : (Mat.a, m * dim.toNat) ∈ r.2.log := by
    refine compareLoop_log (matrixmulNaive_log ?_ hnaive) hcompare
    exact drepper_reads (by omega) hm hdrepper
  obtain ⟨-, rfl⟩ := Prod.mk.inj (Option.some.inj heq)
  exact absurd (hin _ hread) (Nat.not_lt.2 hover)

end

/-- Between the two ends no element outside the allocations is touched. -/
theorem perfMain_inBounds {α : Type*} [Zero α] [AddCommMagma α] [CommMagma α]
    (random : Mat → ℕ → α) (mismatch : α → α → Bool) (elem : Mat → ℕ → α) {dim : BitVec 32}
    (h : accepted dim = true) (hdim : dim.toNat = 0 ∨ 8 ≤ dim.toNat ∧ dim.toNat ≤ 2 ^ 15) :
    DimensionSafe random mismatch elem dim := by
  obtain ⟨⟨t, ht⟩, hsq⟩ := accepted_fits h hdim
  have hall : allocated dim = dim.toNat * dim.toNat := by
    rw [allocated, BitVec.toNat_mul, Nat.mod_eq_of_lt hsq]
  obtain ⟨fuel, hfuel⟩ : ∃ fuel, 2 ^ 33 < fuel := ⟨_, Nat.lt_succ_self _⟩
  have hsize : allocated dim < fuel := by omega
  have hsize' : allocated dim + 1 < fuel := by omega
  have hdim : 8 * t + 8 < fuel := by
    have := dim.isLt
    omega
  have hdim' : dim.toNat < fuel := by omega
  obtain ⟨h₁, hrun₁, hin₁⟩ := createRandomMatrix_bounds (random .a) .a dim hsize ⟨elem, []⟩
  obtain ⟨h₂, hrun₂, hin₂⟩ := createRandomMatrix_bounds (random .b) .b dim hsize h₁
  have hzero : ∀ e < 8 * t * (8 * t),
      (createMatrix .c1 dim (createMatrix .c0 dim h₂)).elem .c0 e = 0 := by
    intro e he
    rw [← ht, ← hall] at he
    simp [createMatrix, he]
  obtain ⟨h₃, hrun₃, htiled⟩ := matrixmulDrepper_tiled ht (ht ▸ hsq) (A := .a) (B := .b)
    (by decide) (by decide) _ hzero hdim
  obtain ⟨h₄, hrun₄, hfilled⟩ := matrixmulNaive_filled rfl hsq (A := .a) (B := .b) (C := .c1)
    (by decide) (by decide) h₃ hdim'
  obtain ⟨r, hrun₅, hin₅⟩ := compareLoop_bounds mismatch dim hsize' h₄
  refine ⟨fuel, r.1.getD 0, r.2, by simp [perfMain, h, hrun₁, hrun₂, hrun₃, hrun₄, hrun₅], ?_⟩
  -- from the fresh heap on, each part stays below `dim * dim`
  rw [hall] at hin₁ hin₂ hin₅
  have hdrepper : InBounds dim.toNat h₂ h₃ := ht ▸ htiled.bounds
  have hbounds := ((InBounds.trans hin₁ hin₂).trans hdrepper).trans hfilled.bounds
  intro q hq
  rw [hall]
  rcases (hbounds.trans hin₅) q hq with hq | hlt
  · exact absurd hq List.not_mem_nil
  · exact hlt

/-- `main` returns for every accepted dimension; its accesses are inside the
allocations exactly for zero and from 8 to `2 ^ 15`. -/
theorem accepted_safe_iff {α : Type*} [Zero α] [AddCommMagma α] [CommMagma α]
    (random : Mat → ℕ → α) (mismatch : α → α → Bool) (elem : Mat → ℕ → α) (dim : BitVec 32)
    (h : accepted dim = true) :
    (∃ fuel r, perfMain random mismatch dim fuel ⟨elem, []⟩ = some r) ∧
      (DimensionSafe random mismatch elem dim ↔
        dim.toNat = 0 ∨ 8 ≤ dim.toNat ∧ dim.toNat ≤ 2 ^ 15) := by
  refine ⟨perfMain_returns random mismatch elem h, fun hsafe => ?_,
    perfMain_inBounds random mismatch elem h⟩
  by_contra hdim
  exact perfMain_overruns random mismatch elem h hdim hsafe

theorem accepted_safe_eight :
    let random : Mat → ℕ → ℤ := fun _ i => i
    let mismatch : ℤ → ℤ → Bool := fun c1 c0 => c1 != c0
    DimensionSafe random mismatch (fun _ _ => 0) 8 :=
  (accepted_safe_iff _ _ _ 8 (by decide)).2.2 (by decide)

/-- Dimension 4 is accepted, and its fifth row is read. -/
theorem accepted_unsafe_four :
    let random : Mat → ℕ → ℤ := fun _ i => i
    let mismatch : ℤ → ℤ → Bool := fun c1 c0 => c1 != c0
    accepted 4 = true ∧ ¬ DimensionSafe random mismatch (fun _ _ => 0) 4 :=
  ⟨by decide, perfMain_overruns _ _ _ (by decide) (by decide)⟩

end SyscallAdvent.Matrix
