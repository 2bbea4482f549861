import Mathlib.Tactic.Common

/-! C loops with a bound on the number of tests. A loop that is still running
when the bound is used up has no result, so a result is always the state after
the real loop, and termination is the existence of a large enough bound.

The rules: an invariant for whatever a loop returns; an indexed assertion or a
variant, which also give the result; a relation between two loops; and, for a
loop whose result is not known, that an iteration its header leads to was in
fact made. -/

namespace CLoop

variable {σ ι : Type*}

/-- `while (cond) body`, for at most `fuel` tests of `cond`. -/
def whileLoop (cond : σ → Bool) (body : σ → Option σ) : ℕ → σ → Option σ
  | 0, _ => none
  | fuel + 1, s => if cond s then (body s).bind (whileLoop cond body fuel) else some s

/-- `for (i; cond; i = next)` with header variables `i` that the body only reads. -/
def forLoop (cond : ι → Bool) (next : ι → ι) (body : ι → σ → Option σ) (fuel : ℕ) (i : ι)
    (s : σ) : Option σ :=
  (whileLoop (fun p : ι × σ => cond p.1)
    (fun p => (body p.1 p.2).map fun s' => (next p.1, s')) fuel (i, s)).map Prod.snd

theorem whileLoop_of_false {cond : σ → Bool} {body : σ → Option σ} {s : σ}
    (h : cond s = false) (fuel : ℕ) : whileLoop cond body (fuel + 1) s = some s := by
  simp [whileLoop, h]

/-- What the body keeps holds of the result, where the condition fails. -/
theorem whileLoop_invariant {cond : σ → Bool} {body : σ → Option σ} (Inv : σ → Prop)
    (hstep : ∀ s s', Inv s → cond s = true → body s = some s' → Inv s') :
    ∀ {fuel s s'}, Inv s → whileLoop cond body fuel s = some s' → Inv s' ∧ cond s' = false := by
  intro fuel
  induction fuel with
  | zero => intro s s' _ h; simp [whileLoop] at h
  | succ fuel ih =>
    intro s s' hs h
    unfold whileLoop at h
    split_ifs at h with hc
    · obtain ⟨t, ht, h⟩ := Option.bind_eq_some_iff.1 h
      exact ih (hstep s t hs hc ht) h
    · obtain rfl := Option.some.inj h
      exact ⟨hs, by simpa using hc⟩

/-- A loop that makes exactly `n` iterations along the assertions `P 0 .. P n` returns. -/
theorem whileLoop_steps {cond : σ → Bool} {body : σ → Option σ} (P : ℕ → σ → Prop) {n : ℕ}
    (hstep : ∀ k < n, ∀ s, P k s → cond s = true ∧ ∃ s', body s = some s' ∧ P (k + 1) s')
    (hend : ∀ s, P n s → cond s = false) {fuel : ℕ} (hfuel : n < fuel) {s : σ} (h0 : P 0 s) :
    ∃ s', whileLoop cond body fuel s = some s' ∧ P n s' := by
  have hrun : ∀ d k fuel s, k + d = n → d < fuel → P k s →
      ∃ s', whileLoop cond body fuel s = some s' ∧ P n s' := by
    intro d
    induction d with
    | zero =>
      rintro k (_ | fuel) s hk hlt hs
      · omega
      · obtain rfl : k = n := by omega
        exact ⟨s, whileLoop_of_false (hend s hs) fuel, hs⟩
    | succ d ih =>
      rintro k (_ | fuel) s hk hlt hs
      · omega
      · obtain ⟨hc, s₁, hb, hs₁⟩ := hstep k (by omega) s hs
        obtain ⟨s', hw, hs'⟩ := ih (k + 1) fuel s₁ (by omega) (by omega) hs₁
        exact ⟨s', by simp [whileLoop, hc, hb, hw], hs'⟩
  exact hrun n 0 fuel s (by omega) hfuel h0

/-- A loop whose body always goes through and brings `μ` down returns. -/
theorem whileLoop_variant {cond : σ → Bool} {body : σ → Option σ} (Inv : σ → Prop) (μ : σ → ℕ)
    (hstep : ∀ s, Inv s → cond s = true → ∃ s', body s = some s' ∧ Inv s' ∧ μ s' < μ s) :
    ∀ {fuel s}, μ s < fuel → Inv s →
      ∃ s', whileLoop cond body fuel s = some s' ∧ Inv s' ∧ cond s' = false := by
  intro fuel
  induction fuel with
  | zero => intro s hlt; omega
  | succ fuel ih =>
    intro s hlt hs
    cases hc : cond s with
    | false => exact ⟨s, whileLoop_of_false hc fuel, hs, hc⟩
    | true =>
      obtain ⟨s₁, hb, hs₁, hμ⟩ := hstep s hs hc
      obtain ⟨s', hw, hs'⟩ := ih (by omega : μ s₁ < fuel) hs₁
      exact ⟨s', by simp [whileLoop, hc, hb, hw], hs'⟩

/-- The bound does not decide what a loop returns. -/
theorem whileLoop_unique {cond : σ → Bool} {body : σ → Option σ} :
    ∀ {fuel fuel' s r r'}, whileLoop cond body fuel s = some r →
      whileLoop cond body fuel' s = some r' → r = r' := by
  intro fuel
  induction fuel with
  | zero => intro _ _ _ _ h; simp [whileLoop] at h
  | succ fuel ih =>
    rintro (_ | fuel') s r r' h h'
    · simp [whileLoop] at h'
    unfold whileLoop at h h'
    split_ifs at h h'
    · obtain ⟨t, ht, h⟩ := Option.bind_eq_some_iff.1 h
      obtain ⟨t', ht', h'⟩ := Option.bind_eq_some_iff.1 h'
      obtain rfl := Option.some.inj (ht.symm.trans ht')
      exact ih h h'
    · exact Option.some.inj (h.symm.trans h')

theorem forLoop_unique {cond : ι → Bool} {next : ι → ι} {body : ι → σ → Option σ}
    {fuel fuel' : ℕ} {i : ι} {s r r' : σ} (h : forLoop cond next body fuel i s = some r)
    (h' : forLoop cond next body fuel' i s = some r') : r = r' := by
  obtain ⟨p, hw, rfl⟩ := Option.map_eq_some_iff.1 h
  obtain ⟨p', hw', rfl⟩ := Option.map_eq_some_iff.1 h'
  rw [whileLoop_unique hw hw']

theorem forLoop_zero (cond : ι → Bool) (next : ι → ι) (body : ι → σ → Option σ) (i : ι) (s : σ) :
    forLoop cond next body 0 i s = none := rfl

theorem forLoop_succ (cond : ι → Bool) (next : ι → ι) (body : ι → σ → Option σ) (fuel : ℕ)
    (i : ι) (s : σ) : forLoop cond next body (fuel + 1) i s =
      if cond i then (body i s).bind (forLoop cond next body fuel (next i)) else some s := by
  simp only [forLoop, whileLoop]
  split_ifs
  · cases body i s <;> rfl
  · rfl

theorem forLoop_invariant {cond : ι → Bool} {next : ι → ι} {body : ι → σ → Option σ}
    (Inv : σ → Prop) (hstep : ∀ i s s', Inv s → body i s = some s' → Inv s')
    {fuel : ℕ} {i : ι} {s s' : σ} (hs : Inv s)
    (h : forLoop cond next body fuel i s = some s') : Inv s' := by
  obtain ⟨⟨j, t⟩, hw, rfl⟩ := Option.map_eq_some_iff.1 h
  refine (whileLoop_invariant (fun p => Inv p.2) ?_ hs hw).1
  rintro ⟨i, s⟩ p hi - hb
  obtain ⟨t, ht, rfl⟩ := Option.map_eq_some_iff.1 hb
  exact hstep i s t hi ht

/-- Two loops under one header whose bodies keep a relation between their states. -/
theorem forLoop_simulation {τ : Type*} {cond : ι → Bool} {next : ι → ι}
    {body : ι → σ → Option σ} {body' : ι → τ → Option τ} (R : σ → τ → Prop)
    (hbody : ∀ i s t s', R s t → body i s = some s' → ∃ t', body' i t = some t' ∧ R s' t') :
    ∀ {fuel i s t s'}, R s t → forLoop cond next body fuel i s = some s' →
      ∃ t', forLoop cond next body' fuel i t = some t' ∧ R s' t' := by
  intro fuel
  induction fuel with
  | zero => intro i s t s' _ h; simp [forLoop_zero] at h
  | succ fuel ih =>
    intro i s t s' hr h
    rw [forLoop_succ] at h
    split_ifs at h with hc
    · obtain ⟨s₁, hs₁, h⟩ := Option.bind_eq_some_iff.1 h
      obtain ⟨t₁, ht₁, hr₁⟩ := hbody i s t s₁ hr hs₁
      obtain ⟨t', ht', hr'⟩ := ih hr₁ h
      exact ⟨t', by rw [forLoop_succ, if_pos hc, ht₁]; exact ht', hr'⟩
    · obtain rfl := Option.some.inj h
      exact ⟨t, by rw [forLoop_succ, if_neg hc], hr⟩

/-- The header runs through `idx 0 .. idx n`; the body meets the assertions in turn. -/
theorem forLoop_steps {cond : ι → Bool} {next : ι → ι} {body : ι → σ → Option σ}
    (P : ℕ → σ → Prop) {n : ℕ} (idx : ℕ → ι) (hnext : ∀ k < n, next (idx k) = idx (k + 1))
    (hcond : ∀ k < n, cond (idx k) = true) (hend : cond (idx n) = false)
    (hbody : ∀ k < n, ∀ s, P k s → ∃ s', body (idx k) s = some s' ∧ P (k + 1) s')
    {fuel : ℕ} (hfuel : n < fuel) {s : σ} (h0 : P 0 s) :
    ∃ s', forLoop cond next body fuel (idx 0) s = some s' ∧ P n s' := by
  have hw : ∃ p, whileLoop (fun p : ι × σ => cond p.1)
      (fun p : ι × σ => (body p.1 p.2).map fun s' => (next p.1, s')) fuel (idx 0, s) = some p ∧
      p.1 = idx n ∧ P n p.2 := by
    refine whileLoop_steps (fun k (p : ι × σ) => p.1 = idx k ∧ P k p.2) ?_ ?_ hfuel ⟨rfl, h0⟩
    · rintro k hk ⟨_, s⟩ ⟨rfl, hs⟩
      obtain ⟨s', hb, hs'⟩ := hbody k hk s hs
      exact ⟨hcond k hk, (idx (k + 1), s'), by simp [hb, hnext k hk], rfl, hs'⟩
    · rintro ⟨_, s⟩ ⟨rfl, -⟩
      exact hend
  obtain ⟨⟨j, s'⟩, hw, -, hs'⟩ := hw
  exact ⟨s', by rw [forLoop, hw]; rfl, hs'⟩

/-- A loop whose header stops it and whose body always goes through returns. -/
theorem forLoop_returns {cond : ι → Bool} {next : ι → ι} {body : ι → σ → Option σ} {n : ℕ}
    (idx : ℕ → ι) (hnext : ∀ k < n, next (idx k) = idx (k + 1))
    (hcond : ∀ k < n, cond (idx k) = true) (hend : cond (idx n) = false)
    (hbody : ∀ i s, ∃ s', body i s = some s') {fuel : ℕ} (hfuel : n < fuel) (s : σ) :
    ∃ s', forLoop cond next body fuel (idx 0) s = some s' := by
  obtain ⟨s', hrun, -⟩ := forLoop_steps (fun _ _ => True) idx hnext hcond hend
    (fun k _ s _ => (hbody (idx k) s).imp fun _ hb => ⟨hb, trivial⟩) hfuel (s := s) trivial
  exact ⟨s', hrun⟩

/-- A loop that returned has made iteration `m` of its header, so it ends with
whatever that iteration establishes and all others keep. -/
theorem forLoop_establishes {cond : ι → Bool} {next : ι → ι} {body : ι → σ → Option σ}
    (Q : σ → Prop) (idx : ℕ → ι) (m : ℕ) {fuel : ℕ} {s s' : σ}
    (h : forLoop cond next body fuel (idx 0) s = some s')
    (hnext : ∀ k < m, next (idx k) = idx (k + 1)) (hcond : ∀ k ≤ m, cond (idx k) = true)
    (hbody : ∀ s s', body (idx m) s = some s' → Q s')
    (hkeep : ∀ i s s', Q s → body i s = some s' → Q s') : Q s' := by
  have hreach : ∀ k ≤ m, ∃ fuel' s₁, forLoop cond next body fuel' (idx k) s₁ = some s' := by
    intro k
    induction k with
    | zero => intro _; exact ⟨fuel, s, h⟩
    | succ k ih =>
      intro hk
      obtain ⟨_ | fuel', s₁, h₁⟩ := ih (by omega)
      · simp [forLoop_zero] at h₁
      · rw [forLoop_succ, if_pos (hcond k (by omega)), hnext k (by omega)] at h₁
        obtain ⟨s₂, -, h₂⟩ := Option.bind_eq_some_iff.1 h₁
        exact ⟨fuel', s₂, h₂⟩
  obtain ⟨_ | fuel', s₁, h₁⟩ := hreach m (Nat.le_refl m)
  · simp [forLoop_zero] at h₁
  · rw [forLoop_succ, if_pos (hcond m (Nat.le_refl m))] at h₁
    obtain ⟨s₂, hb, h₂⟩ := Option.bind_eq_some_iff.1 h₁
    exact forLoop_invariant Q hkeep (hbody s₁ s₂ hb) h₂

end CLoop
