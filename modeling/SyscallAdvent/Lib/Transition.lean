import Mathlib.Tactic.Common

/-! Finite runs of a labelled transition relation, with their event traces, and
the rules every run proof below uses: an invariant is carried along a run, runs
compose, a count over the trace grows with its last event, and bounded runs that
can go on reach their goal. -/

namespace Transition

variable {σ α : Type*} {step : σ → α → σ → Prop} {s₀ : σ}

/-- `Run step s₀ evs s`: the events `evs`, in this order, lead from `s₀` to `s`. -/
inductive Run (step : σ → α → σ → Prop) (s₀ : σ) : List α → σ → Prop
  | nil : Run step s₀ [] s₀
  | snoc {evs s e s'} : Run step s₀ evs s → step s e s' → Run step s₀ (evs ++ [e]) s'

/-- What holds of the start and is kept by each step holds along every run. -/
theorem Run.invariant {P : List α → σ → Prop} (h0 : P [] s₀)
    (hstep : ∀ evs s e s', P evs s → step s e s' → P (evs ++ [e]) s') :
    ∀ {evs s}, Run step s₀ evs s → P evs s := by
  intro evs s h
  induction h with
  | nil => exact h0
  | snoc _ hs ih => exact hstep _ _ _ _ ih hs

theorem Run.single {e : α} {s : σ} (h : step s₀ e s) : Run step s₀ [e] s := by
  simpa using Run.snoc Run.nil h

theorem Run.mono {step' : σ → α → σ → Prop} (hle : ∀ s e s', step s e s' → step' s e s')
    {evs : List α} {s : σ} (h : Run step s₀ evs s) : Run step' s₀ evs s := by
  induction h with
  | nil => exact .nil
  | snoc _ hs ih => exact ih.snoc (hle _ _ _ hs)

theorem Run.trans {evs evs' : List α} {s s' : σ} (h : Run step s₀ evs s)
    (h' : Run step s evs' s') : Run step s₀ (evs ++ evs') s' := by
  induction h' with
  | nil => simpa using h
  | snoc _ hs ih => simpa only [List.append_assoc] using ih.snoc hs

theorem Run.snoc_inv {evs : List α} {e : α} {s' : σ} (h : Run step s₀ (evs ++ [e]) s') :
    ∃ s, Run step s₀ evs s ∧ step s e s' := by
  generalize hl : evs ++ [e] = l at h
  cases h with
  | nil => simp at hl
  | snoc h hs =>
    obtain ⟨rfl, he⟩ := List.append_inj' hl rfl
    cases he
    exact ⟨_, h, hs⟩

/-- If an event and the state before it determine the state after it, then so
does a trace. -/
theorem Run.deterministic (hdet : ∀ s e s₁ s₂, step s e s₁ → step s e s₂ → s₁ = s₂)
    {evs : List α} {s s' : σ} (h : Run step s₀ evs s) (h' : Run step s₀ evs s') : s = s' := by
  induction h generalizing s' with
  | nil =>
    generalize hl : ([] : List α) = l at h'
    cases h' with
    | nil => rfl
    | snoc => simp at hl
  | snoc _ hs ih =>
    obtain ⟨s₁, h₁, hs₁⟩ := h'.snoc_inv
    rw [← ih h₁] at hs₁
    exact hdet _ _ _ _ hs hs₁

/-- One event more in a trace of which those that `f` shows as `b` are counted. -/
theorem count_filterMap_snoc {β : Type*} [DecidableEq β] [BEq β] [LawfulBEq β]
    (f : α → Option β) (b : β) (evs : List α) (e : α) :
    ((evs ++ [e]).filterMap f).count b =
      (evs.filterMap f).count b + if f e = some b then 1 else 0 := by
  rw [List.filterMap_append, List.count_append]
  cases h : f e with
  | none => simp [h]
  | some c => simp [h, List.count_singleton]

/-- `s` leads to `s'` by some events; the traces are forgotten. -/
def Leads (step : σ → α → σ → Prop) (s s' : σ) : Prop := ∃ evs, Run step s evs s'

theorem Leads.refl (s : σ) : Leads step s s := ⟨[], .nil⟩

theorem Leads.single {s s' : σ} {e : α} (h : step s e s') : Leads step s s' := ⟨[e], .single h⟩

theorem Leads.trans {a b c : σ} (h : Leads step a b) (h' : Leads step b c) : Leads step a c := by
  obtain ⟨evs, h⟩ := h
  obtain ⟨evs', h'⟩ := h'
  exact ⟨evs ++ evs', h.trans h'⟩

/-- If runs are bounded in length and can go on as long as they are not at their
goal, then each of them leads there. -/
theorem Run.exists_goal {goal : σ → Prop} {n : ℕ}
    (hbound : ∀ evs s, Run step s₀ evs s → evs.length ≤ n)
    (hgo : ∀ evs s, Run step s₀ evs s → ¬ goal s → ∃ e s', step s e s') :
    ∀ {evs s}, Run step s₀ evs s → ∃ s', Leads step s s' ∧ goal s' := by
  have hleft : ∀ d evs s, n - evs.length ≤ d → Run step s₀ evs s →
      ∃ s', Leads step s s' ∧ goal s' := by
    intro d
    induction d with
    | zero =>
      intro evs s hd h
      by_contra hno
      have hs : ¬ goal s := fun hg => hno ⟨s, .refl s, hg⟩
      obtain ⟨e, s', hs'⟩ := hgo evs s h hs
      have := hbound _ _ (h.snoc hs')
      rw [List.length_append, List.length_singleton] at this
      omega
    | succ d ih =>
      intro evs s hd h
      by_cases hs : goal s
      · exact ⟨s, .refl s, hs⟩
      · obtain ⟨e, s', hs'⟩ := hgo evs s h hs
        obtain ⟨s'', hl, hg⟩ := ih (evs ++ [e]) s'
          (by rw [List.length_append, List.length_singleton]; omega) (h.snoc hs')
        exact ⟨s'', (Leads.single hs').trans hl, hg⟩
  intro evs s h
  exact hleft _ evs s (Nat.le_refl _) h

end Transition
