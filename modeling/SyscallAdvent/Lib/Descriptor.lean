import Mathlib.Data.Nat.Find
import Mathlib.Logic.Function.Basic
import Mathlib.Tactic

/-! Descriptor tables over any kind of open file. Finitely many descriptors are
open, so there always is a lowest free one, and opening takes that. -/

namespace Descriptor

variable {F : Type*}

structure Entry (F : Type*) where
  file : F
  cloexec : Bool

structure FdTable (F : Type*) where
  get : ℕ → Option (Entry F)
  bounded : ∃ n, ∀ fd, n ≤ fd → get fd = none

@[ext]
theorem FdTable.ext {t t' : FdTable F} (h : ∀ fd, t.get fd = t'.get fd) : t = t' := by
  obtain ⟨get, _⟩ := t
  obtain ⟨get', _⟩ := t'
  obtain rfl : get = get' := funext h
  rfl

theorem FdTable.exists_free (t : FdTable F) : ∃ fd, (t.get fd).isNone = true := by
  obtain ⟨n, hn⟩ := t.bounded
  exact ⟨n, by rw [hn n (Nat.le_refl n)]; rfl⟩

def FdTable.lowestFree (t : FdTable F) : ℕ := Nat.find t.exists_free

theorem update_bounded {get : ℕ → Option (Entry F)} (h : ∃ n, ∀ fd, n ≤ fd → get fd = none)
    (fd : ℕ) (e : Option (Entry F)) :
    ∃ n, ∀ fd', n ≤ fd' → Function.update get fd e fd' = none := by
  obtain ⟨n, hn⟩ := h
  refine ⟨max n (fd + 1), fun fd' h => ?_⟩
  rw [Function.update_of_ne (by omega)]
  exact hn fd' (by omega)

def FdTable.set (t : FdTable F) (fd : ℕ) (e : Entry F) : FdTable F :=
  ⟨Function.update t.get fd (some e), update_bounded t.bounded fd _⟩

def FdTable.close (t : FdTable F) (fd : ℕ) : FdTable F :=
  ⟨Function.update t.get fd none, update_bounded t.bounded fd _⟩

/-- The copy does not close on exec, also if it is a copy onto itself. -/
def FdTable.dup2 (t : FdTable F) (src dst : ℕ) : Option (FdTable F) :=
  (t.get src).map fun e => t.set dst ⟨e.file, false⟩

/-- The lowest free descriptor is opened. -/
def FdTable.install (t : FdTable F) (e : Entry F) : ℕ × FdTable F :=
  (t.lowestFree, t.set t.lowestFree e)

/-- A pair of descriptors, in this order. -/
def FdTable.installPair (t : FdTable F) (e e' : Entry F) : (ℕ × ℕ) × FdTable F :=
  let (fd, t) := t.install e
  let (fd', t) := t.install e'
  ((fd, fd'), t)

def FdTable.exec (t : FdTable F) : FdTable F where
  get fd := (t.get fd).filter (! ·.cloexec)
  bounded := by
    obtain ⟨n, hn⟩ := t.bounded
    exact ⟨n, fun fd h => by rw [hn fd h]; rfl⟩

@[simp] theorem FdTable.get_set (t : FdTable F) (fd fd' : ℕ) (e : Entry F) :
    (t.set fd e).get fd' = if fd' = fd then some e else t.get fd' :=
  Function.update_apply ..

@[simp] theorem FdTable.get_close (t : FdTable F) (fd fd' : ℕ) :
    (t.close fd).get fd' = if fd' = fd then none else t.get fd' :=
  Function.update_apply ..

theorem FdTable.get_exec_eq_some {t : FdTable F} {fd : ℕ} {e : Entry F} :
    t.exec.get fd = some e ↔ t.get fd = some e ∧ e.cloexec = false := by
  simp [FdTable.exec, Option.filter_eq_some_iff]

theorem FdTable.get_lowestFree (t : FdTable F) : t.get t.lowestFree = none :=
  Option.isNone_iff_eq_none.1 (Nat.find_spec t.exists_free)

theorem FdTable.lowestFree_le {t : FdTable F} {fd : ℕ} (h : t.get fd = none) :
    t.lowestFree ≤ fd :=
  Nat.find_min' t.exists_free (by rw [h]; rfl)

theorem FdTable.lowestFree_eq_zero_iff (t : FdTable F) : t.lowestFree = 0 ↔ t.get 0 = none := by
  constructor
  · intro h
    rw [← h]
    exact t.get_lowestFree
  · intro h
    exact Nat.le_zero.1 (lowestFree_le h)

theorem FdTable.get_install_self (t : FdTable F) (e : Entry F) :
    (t.install e).2.get (t.install e).1 = some e := by
  simp [install]

/-- Opening and closing again changes nothing. -/
theorem FdTable.close_install (t : FdTable F) (e : Entry F) :
    (t.install e).2.close (t.install e).1 = t := by
  ext1 fd
  simp only [install, get_close, get_set]
  split_ifs with hfd
  · rw [hfd, t.get_lowestFree]
  · rfl

/-- After any opening descriptor 0 is taken. -/
theorem FdTable.get_install_zero (t : FdTable F) (e : Entry F) :
    (t.install e).2.get 0 ≠ none := by
  intro h
  simp only [install, get_set] at h
  split_ifs at h with h0
  have := t.lowestFree_le h
  omega

/-- What a pair of openings gives: two free descriptors, the second not 0. -/
theorem FdTable.installPair_spec (t : FdTable F) (e e' : Entry F) :
    ∃ fd fd' t', t.installPair e e' = ((fd, fd'), t') ∧ t.get fd = none ∧ t.get fd' = none ∧
      fd' ≠ fd ∧ fd' ≠ 0 ∧ ∀ x, t'.get x = if x = fd' then some e' else
        if x = fd then some e else t.get x := by
  have hfree' : (t.set t.lowestFree e).get (t.set t.lowestFree e).lowestFree = none :=
    get_lowestFree _
  have h0 : (t.set t.lowestFree e).lowestFree ≠ 0 := fun h =>
    t.get_install_zero e (h ▸ hfree')
  rw [get_set] at hfree'
  split_ifs at hfree' with hne
  exact ⟨_, _, _, rfl, t.get_lowestFree, hfree', hne, h0, fun x => by simp⟩

/-- A pair of openings takes the two lowest free descriptors. -/
theorem FdTable.installPair_order {t t' : FdTable F} {e e' : Entry F} {fd fd' : ℕ}
    (h : t.installPair e e' = ((fd, fd'), t')) :
    fd < fd' ∧ ∀ x < fd', t.get x = none → x = fd := by
  obtain ⟨⟨rfl, rfl⟩, -⟩ : (t.lowestFree = fd ∧ (t.set t.lowestFree e).lowestFree = fd') ∧ _ := by
    simpa only [installPair, install, Prod.mk.injEq] using h
  have hfree : ∀ x, (t.set t.lowestFree e).get x = none ↔ x ≠ t.lowestFree ∧ t.get x = none := by
    intro x
    rw [get_set]
    split_ifs with hx <;> simp [hx]
  obtain ⟨hne, hnone⟩ := (hfree _).1 (get_lowestFree (t.set t.lowestFree e))
  refine ⟨lt_of_le_of_ne (lowestFree_le hnone) hne.symm, fun x hx hget => ?_⟩
  by_contra hxfd
  exact absurd (lowestFree_le ((hfree x).2 ⟨hxfd, hget⟩)) (by omega)

/-- One descriptor is copied onto several, possibly onto itself as well. -/
theorem FdTable.foldlM_dup2 {src : ℕ} (dsts : List ℕ) {t : FdTable F} {e : Entry F}
    (h : t.get src = some e) :
    ∃ t', (dsts.map (src, ·)).foldlM (fun t a => t.dup2 a.1 a.2) t = some t' ∧
      ∀ fd, t'.get fd = if fd ∈ dsts then some ⟨e.file, false⟩ else t.get fd := by
  induction dsts generalizing t e with
  | nil => exact ⟨t, rfl, fun fd => by simp⟩
  | cons dst dsts ih =>
    -- the source may be overwritten, but only by a copy of itself
    obtain ⟨e', hget, hfile⟩ : ∃ e', (t.set dst ⟨e.file, false⟩).get src = some e' ∧
        e'.file = e.file := by
      rw [get_set]
      split_ifs
      · exact ⟨_, rfl, rfl⟩
      · exact ⟨e, h, rfl⟩
    obtain ⟨t', hfold, ht'⟩ := ih hget
    refine ⟨t', ?_, fun fd => ?_⟩
    · rw [List.map_cons, List.foldlM_cons]
      simp only [dup2, h, Option.map_some, Option.bind_eq_bind, Option.bind_some]
      exact hfold
    · simp only [ht', get_set, hfile, List.mem_cons]
      by_cases hmem : fd ∈ dsts <;> simp [hmem]

theorem FdTable.foldlM_dup2_closed {src : ℕ} {dsts : List ℕ} (hdsts : dsts ≠ []) {t : FdTable F}
    (h : t.get src = none) :
    (dsts.map (src, ·)).foldlM (fun t a => t.dup2 a.1 a.2) t = none := by
  obtain ⟨dst, dsts, rfl⟩ := List.exists_cons_of_ne_nil hdsts
  rw [List.map_cons, List.foldlM_cons]
  simp [dup2, h]

end Descriptor
