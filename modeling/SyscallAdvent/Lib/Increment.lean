import Mathlib.Algebra.Order.BigOperators.Group.Finset
import Mathlib.Data.Fintype.Basic
import Mathlib.Tactic
import SyscallAdvent.Lib.Transition

/-! Cells that agents count up by a load and a store of their own, without any
synchronization. A store writes one more than the load before it has read, so
what other agents have stored in between is lost. A cell never shows more than
the stores to it, it shows all of them as long as each store found what its load
had read, and once one is lost the cell never catches up. -/

namespace Increment

open Transition

inductive Access (ι κ : Type*)
  | load (t : ι) (c : κ)
  | store (t : ι) (c : κ)

/-- What the cells show, and the cell and value that an agent has read and not
stored since. -/
structure Cells (ι κ : Type*) where
  count : κ → ℕ
  pending : ι → Option (κ × ℕ)

def Cells.zero {ι κ : Type*} : Cells ι κ := ⟨fun _ => 0, fun _ => none⟩

def Access.written {ι κ : Type*} : Access ι κ → Option (ι × κ)
  | .load _ _ => none
  | .store t c => some (t, c)

variable {ι κ : Type*} [DecidableEq ι] [DecidableEq κ]

inductive Step : Cells ι κ → Access ι κ → Cells ι κ → Prop
  | load {w} (t : ι) (c : κ) : Step w (.load t c)
      { w with pending := Function.update w.pending t (some (c, w.count c)) }
  | store {w t c v} : w.pending t = some (c, v) → Step w (.store t c)
      { count := Function.update w.count c (v + 1)
        pending := Function.update w.pending t none }

/-- The stores to a cell. -/
def stores (c : κ) (accs : List (Access ι κ)) : ℕ :=
  (accs.filterMap fun a => a.written.map Prod.snd).count c

/-- The stores of an agent. -/
def storesOf (t : ι) (accs : List (Access ι κ)) : ℕ :=
  (accs.filterMap fun a => a.written.map Prod.fst).count t

/-- The stores of an agent to a cell. -/
def storesBy (t : ι) (c : κ) (accs : List (Access ι κ)) : ℕ :=
  (accs.filterMap Access.written).count (t, c)

omit [DecidableEq ι] in
theorem stores_snoc (c : κ) (accs : List (Access ι κ)) (a : Access ι κ) :
    stores c (accs ++ [a]) = stores c accs + if a.written.map Prod.snd = some c then 1 else 0 :=
  count_filterMap_snoc _ c accs a

omit [DecidableEq κ] in
theorem storesOf_snoc (t : ι) (accs : List (Access ι κ)) (a : Access ι κ) :
    storesOf t (accs ++ [a]) =
      storesOf t accs + if a.written.map Prod.fst = some t then 1 else 0 :=
  count_filterMap_snoc _ t accs a

theorem storesBy_snoc (t : ι) (c : κ) (accs : List (Access ι κ)) (a : Access ι κ) :
    storesBy t c (accs ++ [a]) =
      storesBy t c accs + if a.written = some (t, c) then 1 else 0 :=
  count_filterMap_snoc _ (t, c) accs a

/-- An agent that stores to one cell only. -/
theorem storesOf_eq_storesBy {c : κ} {accs : List (Access ι κ)}
    (h : ∀ d, d ≠ c → stores d accs = 0) (t : ι) : storesOf t accs = storesBy t c accs := by
  induction accs using List.reverseRecOn with
  | nil => rfl
  | append_singleton accs a ih =>
    have hbefore : ∀ d, d ≠ c → stores d accs = 0 := by
      intro d hd
      have := h d hd
      rw [stores_snoc] at this
      omega
    rw [storesOf_snoc, storesBy_snoc, ih hbefore]
    cases a with
    | load u d => rfl
    | store u d =>
      have hdc : d = c := by
        by_contra hne
        have := h d hne
        simp [stores_snoc, Access.written] at this
      simp [Access.written, hdc]

/-- What every run from zero keeps of its trace and its cells. -/
structure Sound (accs : List (Access ι κ)) (w : Cells ι κ) : Prop where
  count_le : ∀ c, w.count c ≤ stores c accs
  read_le : ∀ t c v, w.pending t = some (c, v) → v ≤ stores c accs
  -- who has read as much as was stored has read what is there
  current : ∀ t c v, w.pending t = some (c, v) → v = stores c accs → w.count c = v
  zero : ∀ c, w.count c = 0 → stores c accs = 0
  unread : ∀ t c, w.pending t = some (c, 0) → storesBy t c accs = 0
  one : ∀ c, w.count c = 1 → ∃ t, storesBy t c accs = 1

theorem storesBy_le_stores (t : ι) (c : κ) (accs : List (Access ι κ)) :
    storesBy t c accs ≤ stores c accs := by
  induction accs using List.reverseRecOn with
  | nil => exact Nat.le_refl _
  | append_singleton accs a ih =>
    rw [storesBy_snoc, stores_snoc]
    refine Nat.add_le_add ih ?_
    by_cases h : a.written = some (t, c)
    · simp [h]
    · simp [h]

theorem sound_zero : Sound [] (Cells.zero : Cells ι κ) :=
  ⟨fun _ => Nat.le_refl _, (fun _ _ _ h => nomatch h), (fun _ _ _ h => nomatch h),
    fun _ _ => rfl, (fun _ _ h => nomatch h), (fun _ h => nomatch h)⟩

theorem sound_load {accs : List (Access ι κ)} {w : Cells ι κ} (hs : Sound accs w) (t : ι)
    (c : κ) :
    Sound (accs ++ [.load t c])
      { w with pending := Function.update w.pending t (some (c, w.count c)) } := by
  have hstores : ∀ d, stores d (accs ++ [Access.load t c]) = stores d accs := fun d => by
    simp [stores_snoc, Access.written]
  have hby : ∀ u d, storesBy u d (accs ++ [Access.load t c]) = storesBy u d accs := fun u d => by
    simp [storesBy_snoc, Access.written]
  have hpending : ∀ {u d v},
      Function.update w.pending t (some (c, w.count c)) u = some (d, v) →
      d = c ∧ v = w.count c ∨ w.pending u = some (d, v) := by
    intro u d v h
    rcases eq_or_ne u t with rfl | hne
    · simp only [Function.update_self, Option.some.injEq, Prod.mk.injEq] at h
      exact Or.inl ⟨h.1.symm, h.2.symm⟩
    · rw [Function.update_of_ne hne] at h
      exact Or.inr h
  refine ⟨fun d => ?_, fun u d v h => ?_, fun u d v h hv => ?_, fun d h => ?_, fun u d h => ?_,
    fun d h => ?_⟩
  · rw [hstores]
    exact hs.count_le d
  · rw [hstores]
    rcases hpending h with ⟨rfl, rfl⟩ | h
    · exact hs.count_le d
    · exact hs.read_le u d v h
  · rw [hstores] at hv
    rcases hpending h with ⟨rfl, rfl⟩ | h
    · rfl
    · exact hs.current u d v h hv
  · rw [hstores]
    exact hs.zero d h
  · rw [hby]
    rcases hpending h with ⟨rfl, h0⟩ | h
    · have hle := storesBy_le_stores u d accs
      rw [hs.zero d h0.symm] at hle
      exact Nat.le_zero.1 hle
    · exact hs.unread u d h
  · obtain ⟨u, hu⟩ := hs.one d h
    exact ⟨u, (hby u d).trans hu⟩

theorem sound_store {accs : List (Access ι κ)} {w : Cells ι κ} (hs : Sound accs w) {t : ι}
    {c : κ} {v : ℕ} (hv : w.pending t = some (c, v)) :
    Sound (accs ++ [.store t c])
      { count := Function.update w.count c (v + 1)
        pending := Function.update w.pending t none } := by
  have hself : stores c (accs ++ [Access.store t c]) = stores c accs + 1 := by
    simp [stores_snoc, Access.written]
  have hother : ∀ d, d ≠ c → stores d (accs ++ [Access.store t c]) = stores d accs := by
    intro d hd
    simp [stores_snoc, Access.written, hd.symm]
  have hby : ∀ u d, ¬ (u = t ∧ d = c) →
      storesBy u d (accs ++ [Access.store t c]) = storesBy u d accs := by
    intro u d hne
    simp only [storesBy_snoc, Access.written, Option.some.injEq, Prod.mk.injEq]
    rw [if_neg fun h => hne ⟨h.1.symm, h.2.symm⟩, Nat.add_zero]
  have hpending : ∀ {u d k}, Function.update w.pending t none u = some (d, k) →
      u ≠ t ∧ w.pending u = some (d, k) := by
    intro u d k h
    rcases eq_or_ne u t with rfl | hne
    · simp at h
    · rw [Function.update_of_ne hne] at h
      exact ⟨hne, h⟩
  refine ⟨fun d => ?_, fun u d k h => ?_, fun u d k h hk => ?_, fun d h => ?_, fun u d h => ?_,
    fun d h => ?_⟩
  · rcases eq_or_ne d c with rfl | hd
    · simpa [hself] using hs.read_le t d v hv
    · simpa [hother d hd, hd] using hs.count_le d
  · have hread := hs.read_le u d k (hpending h).2
    rcases eq_or_ne d c with rfl | hd
    · rw [hself]
      exact hread.trans (Nat.le_succ _)
    · rwa [hother d hd]
  · have hold := (hpending h).2
    rcases eq_or_ne d c with rfl | hd
    · -- what was read before cannot include the store of now
      have := hs.read_le u d k hold
      rw [hself] at hk
      omega
    · rw [hother d hd] at hk
      simpa [hd] using hs.current u d k hold hk
  · rcases eq_or_ne d c with rfl | hd
    · simp at h
    · rw [hother d hd]
      exact hs.zero d (by simpa [hd] using h)
  · obtain ⟨hne, hold⟩ := hpending h
    rw [hby u d fun hu => hne hu.1]
    exact hs.unread u d hold
  · rcases eq_or_ne d c with rfl | hd
    · -- the store of one has read zero, so it is the agent's first
      have hv0 : v = 0 := by simpa using h
      refine ⟨t, ?_⟩
      rw [storesBy_snoc, hs.unread t d (hv0 ▸ hv)]
      simp [Access.written]
    · obtain ⟨u, hu⟩ := hs.one d (by simpa [hd] using h)
      exact ⟨u, (hby u d fun hu => hd hu.2).trans hu⟩

theorem sound_step {accs : List (Access ι κ)} {w w' : Cells ι κ} {a : Access ι κ}
    (h : Step w a w') (hs : Sound accs w) : Sound (accs ++ [a]) w' := by
  cases h with
  | load t c => exact sound_load hs t c
  | store hv => exact sound_store hs hv

theorem run_sound {accs : List (Access ι κ)} {w : Cells ι κ} (h : Run Step Cells.zero accs w) :
    Sound accs w :=
  h.invariant sound_zero fun _ _ _ _ hs hstep => sound_step hstep hs

/-- A store finds in its cell what its agent has read. -/
def Cells.Fresh (w : Cells ι κ) : Access ι κ → Prop
  | .load _ _ => True
  | .store t c => w.pending t = some (c, w.count c)

/-- No store was lost. -/
def Faithful (accs : List (Access ι κ)) (w : Cells ι κ) : Prop := ∀ c, w.count c = stores c accs

/-- A store that is not fresh is lost, and what is lost stays lost. -/
theorem faithful_step_iff {accs : List (Access ι κ)} {w w' : Cells ι κ} {a : Access ι κ}
    (h : Step w a w') (hs : Sound accs w) :
    Faithful (accs ++ [a]) w' ↔ Faithful accs w ∧ w.Fresh a := by
  cases h with
  | load t c =>
    have hstores : ∀ d, stores d (accs ++ [Access.load t c]) = stores d accs := fun d => by
      simp [stores_snoc, Access.written]
    simp only [Faithful, hstores, Cells.Fresh, and_true]
  | @store t c v hv =>
    have hself : stores c (accs ++ [Access.store t c]) = stores c accs + 1 := by
      simp [stores_snoc, Access.written]
    have hother : ∀ d, d ≠ c → stores d (accs ++ [Access.store t c]) = stores d accs := by
      intro d hd
      simp [stores_snoc, Access.written, hd.symm]
    constructor
    · intro hf
      have hvc : v = stores c accs := by
        have := hf c
        simp only [Function.update_self, hself] at this
        omega
      have hcount := hs.current t c v hv hvc
      refine ⟨fun d => ?_, by rw [Cells.Fresh, hv, hcount]⟩
      rcases eq_or_ne d c with rfl | hd
      · rw [hcount, hvc]
      · have := hf d
        simpa only [hother d hd, Function.update_of_ne hd] using this
    · rintro ⟨hf, hfresh⟩ d
      have hvc : v = w.count c := by
        rw [Cells.Fresh, hv] at hfresh
        simpa using hfresh
      rcases eq_or_ne d c with rfl | hd
      · simp only [hself, Function.update_self, hvc, hf d]
      · simp only [hother d hd, Function.update_of_ne hd, hf d]

/-- If some agent stores and none stores just once, the cells show at least two. -/
theorem Sound.two_le {accs : List (Access ι κ)} {w : Cells ι κ} (hs : Sound accs w)
    {S : Finset κ} (hin : ∀ c, stores c accs ≠ 0 → c ∈ S) (hany : ∃ c, stores c accs ≠ 0)
    (hnone : ∀ t, storesOf t accs ≠ 1) : 2 ≤ ∑ c ∈ S, w.count c := by
  by_contra hlt
  obtain ⟨c, hc⟩ := hany
  have hpos : w.count c ≠ 0 := fun h0 => hc (hs.zero c h0)
  have hle := Finset.single_le_sum (f := w.count) (fun _ _ => Nat.zero_le _) (hin c hc)
  have hrest : ∀ d, d ≠ c → stores d accs = 0 := by
    intro d hd
    by_contra hsd
    have hposd : w.count d ≠ 0 := fun h0 => hsd (hs.zero d h0)
    have hpair := Finset.sum_le_sum_of_subset (f := w.count)
      (Finset.insert_subset (hin d hsd) (Finset.singleton_subset_iff.2 (hin c hc)))
    rw [Finset.sum_pair hd] at hpair
    omega
  obtain ⟨t, ht⟩ := hs.one c (by omega)
  exact hnone t ((storesOf_eq_storesBy hrest t).trans ht)

end Increment
