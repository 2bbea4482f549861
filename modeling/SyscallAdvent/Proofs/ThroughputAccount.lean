import Mathlib.Tactic.FieldSimp
import Mathlib.Tactic.Linarith
import Mathlib.Tactic.NormNum
import Mathlib.Tactic.Positivity
import Mathlib.Tactic.Ring
import SyscallAdvent.Spec.Throughput

/-! No time and no byte is lost between the lines. The time stamp moves only when
a line is printed, to the reading the line is printed at, so the deltas telescope
from the first call on; and the array is cleared at the same moment. -/

namespace SyscallAdvent.Throughput

open Transition

section

variable {a b : Timespec}

theorem Timespec.value_lt (ha : a.Valid) (hb : b.Valid) (h : a.sec < b.sec) :
    a.value < b.value := by
  have hsec : (a.sec : ℚ) + 1 ≤ b.sec := by exact_mod_cast h
  have hlt : (a.nsec : ℚ) < 1000000000 := by exact_mod_cast ha.lt
  have hnsec : (0 : ℚ) ≤ b.nsec := by exact_mod_cast hb.nsec
  unfold value
  linarith

end

section

variable {n : ℕ}

/-- What is printed at a reading. -/
def line (now : Timespec) (m : Meter n) : Line n :=
  let delta := now.value - m.last.value
  ⟨now, delta, fun i => (m.bytes i).toNat / delta / 1024 / 1024⟩

/-- The branches by the seconds: the first call, a later second, or neither. -/
theorem printThroughput_eq {now : Timespec} {m : Meter n} (h : 0 ≤ m.last.sec) :
    printThroughput (.ok now) m = some (
      if m.last.sec = 0 then { m with last := now }
      else if m.last.sec < now.sec then ⟨now, fun _ => 0, line now m :: m.lines⟩
      else m) := by
  have hdelta : ((now.sec - m.last.sec : ℤ) : ℚ) + (now.nsec - m.last.nsec : ℤ) / 1000000000 =
      now.value - m.last.value := by
    unfold Timespec.value
    push_cast
    ring
  simp only [printThroughput, hdelta]
  by_cases h0 : m.last.sec = 0
  · simp [h0]
  · have hpos : 0 < m.last.sec := by omega
    by_cases hlt : m.last.sec < now.sec
    · simp [h0, hpos, hlt, line]
    · simp [h0, hlt]

/-- The time stamp: unset before the first call, then the reading of the latest
line, or of the first call. -/
structure Stamped (s : State n) : Prop where
  unset : s.first = none → s.meter.last = ⟨0, 0⟩ ∧ s.meter.lines = []
  valid : ∀ t, s.first = some t → s.meter.last.Valid
  latest : ∀ t, s.first = some t → s.meter.last = (s.meter.lines.head?.map Line.now).getD t

/-- What a call does. -/
inductive Called (s : State n) (now : Timespec) : State n → Prop
  | first : s.first = none → Called s now ⟨{ s.meter with last := now }, s.added, some now⟩
  | print {t} : s.first = some t → s.meter.last.sec < now.sec → Called s now
      { s with meter := ⟨now, fun _ => 0, line now s.meter :: s.meter.lines⟩ }
  | skip {t} : s.first = some t → now.sec ≤ s.meter.last.sec → Called s now s

theorem exec_called {s s' : State n} {now : Timespec} (hs : Stamped s)
    (h : exec s (.call now) = some s') : Called s now s' := by
  obtain ⟨m, added, first⟩ := s
  cases first with
  | none =>
    have hlast : m.last = ⟨0, 0⟩ := (hs.unset rfl).1
    simp only [exec, printThroughput_eq (m := m) (by rw [hlast]), hlast, if_true, Option.map_some,
      Option.none_or, Option.some.injEq] at h
    subst h
    exact .first rfl
  | some t =>
    have hpos : 0 < m.last.sec := (hs.valid t rfl).sec
    simp only [exec, printThroughput_eq (m := m) hpos.le, if_neg hpos.ne', Option.map_some,
      Option.some_or, Option.some.injEq] at h
    subst h
    split_ifs with hlt
    · exact .print rfl hlt
    · exact .skip rfl (not_lt.1 hlt)

theorem stamped_start (bytes : Fin n → BitVec 64) : Stamped (start bytes) where
  unset := fun _ => ⟨rfl, rfl⟩
  valid := fun _ h => nomatch h
  latest := fun _ h => nomatch h

theorem stamped_step {s s' : State n} {e : Event n} (hs : Stamped s) (h : Step Clocked s e s') :
    Stamped s' := by
  obtain ⟨hclock, h⟩ := h
  cases e with
  | add i count =>
    obtain rfl := Option.some.inj h
    exact ⟨hs.unset, hs.valid, hs.latest⟩
  | call now =>
    cases exec_called hs h with
    | first hnone =>
      refine ⟨fun h => (nomatch h), fun _ _ => hclock, fun t ht => ?_⟩
      rw [← Option.some.inj ht, (hs.unset hnone).2]
      rfl
    | print hsome _ =>
      exact ⟨fun h => (nomatch hsome.symm.trans h), fun _ _ => hclock, fun _ _ => rfl⟩
    | skip => exact hs

theorem run_weaken {policy policy' : State n → Event n → Prop}
    (hle : ∀ s e, policy s e → policy' s e) {s₀ s : State n} {evs : List (Event n)}
    (h : Run (Step policy) s₀ evs s) : Run (Step policy') s₀ evs s :=
  h.mono fun s e _ hstep => ⟨hle s e hstep.1, hstep.2⟩

theorem run_stamped {bytes : Fin n → BitVec 64} {evs : List (Event n)} {s : State n}
    (h : Run (Step Clocked) (start bytes) evs s) : Stamped s := by
  induction h with
  | nil => exact stamped_start bytes
  | snoc _ hstep ih => exact stamped_step ih hstep

/-- What an addition does to the elements, as long as nothing overflows. -/
theorem toNat_add {m : Meter n} {i : Fin n} {count : ℕ} (h : (m.bytes i).toNat + count < 2 ^ 64)
    (j : Fin n) :
    (Function.update m.bytes i (m.bytes i + BitVec.ofNat 64 count) j).toNat =
      (m.bytes j).toNat + if j = i then count else 0 := by
  rcases eq_or_ne j i with rfl | hne
  · rw [Function.update_self, if_pos rfl, BitVec.toNat_add, BitVec.toNat_ofNat, Nat.add_mod_mod,
      Nat.mod_eq_of_lt h]
  · rw [Function.update_of_ne hne, if_neg hne, Nat.add_zero]

/-- The deltas are positive, the bytes are all there, and the deltas telescope. -/
structure Accounted (bytes : Fin n → BitVec 64) (s : State n) : Prop where
  positive : ∀ l ∈ s.meter.lines, 0 < l.delta
  bytes : ∀ i, reported s.meter.lines i + (s.meter.bytes i).toNat =
    (bytes i).toNat + s.added i
  deltas : ∀ t, s.first = some t →
    (s.meter.lines.map Line.delta).sum = s.meter.last.value - t.value

theorem accounted_start (bytes : Fin n → BitVec 64) : Accounted bytes (start bytes) where
  positive := fun _ h => nomatch h
  bytes := fun i => by simp [start, reported]
  deltas := fun _ h => nomatch h

/-- The rate of a line is what was in the element. -/
theorem line_rate {m : Meter n} {now : Timespec} (hdelta : 0 < (line now m).delta) (i : Fin n) :
    (line now m).rates i * 1024 * 1024 * (line now m).delta = (m.bytes i).toNat := by
  have hne := hdelta.ne'
  simp only [line] at hne ⊢
  field_simp

theorem reported_cons {m : Meter n} {now : Timespec} (hdelta : 0 < (line now m).delta)
    (i : Fin n) :
    reported (line now m :: m.lines) i = (m.bytes i).toNat + reported m.lines i := by
  simp only [reported, List.map_cons, List.sum_cons, line_rate hdelta]

theorem accounted_print {bytes : Fin n → BitVec 64} {s : State n} {now : Timespec}
    (h : Accounted bytes s) (hdelta : 0 < (line now s.meter).delta) :
    Accounted bytes { s with meter := ⟨now, fun _ => 0, line now s.meter :: s.meter.lines⟩ } where
  positive := List.forall_mem_cons.2 ⟨hdelta, h.positive⟩
  bytes := fun i => by
    have := h.bytes i
    have hzero : (0 : BitVec 64).toNat = 0 := rfl
    simp only [reported_cons hdelta, hzero, Nat.cast_zero]
    linarith
  deltas := fun t' ht' => by
    have hsum := h.deltas t' ht'
    simp only [List.map_cons, List.sum_cons, hsum, line]
    ring

theorem accounted_step {bytes : Fin n → BitVec 64} {s s' : State n} {e : Event n}
    (hs : Stamped s) (h : Accounted bytes s) (hstep : Step Counted s e s') :
    Accounted bytes s' := by
  obtain ⟨hpolicy, hexec⟩ := hstep
  cases e with
  | add i count =>
    obtain rfl := Option.some.inj hexec
    refine ⟨h.positive, fun j => ?_, h.deltas⟩
    have hj := h.bytes j
    simp only [toNat_add hpolicy j]
    rcases eq_or_ne j i with rfl | hne
    · simp only [Function.update_self, if_true]
      push_cast
      linarith
    · simpa only [Function.update_of_ne hne, if_neg hne, Nat.add_zero] using hj
  | call now =>
    cases exec_called hs hexec with
    | first hnone =>
      refine ⟨h.positive, h.bytes, fun t ht => ?_⟩
      rw [← Option.some.inj ht, (hs.unset hnone).2]
      simp
    | print hsome hlt =>
      exact accounted_print h
        (sub_pos.2 (Timespec.value_lt (hs.valid _ hsome) hpolicy hlt))
    | skip => exact h

theorem Counted.clocked (s : State n) (e : Event n) (h : Counted s e) : Clocked s e := by
  cases e with
  | add => trivial
  | call now => exact h

theorem run_accounted {bytes : Fin n → BitVec 64} {evs : List (Event n)} {s : State n}
    (h : Run (Step Counted) (start bytes) evs s) : Accounted bytes s := by
  induction h with
  | nil => exact accounted_start bytes
  | snoc hrun hstep ih =>
    exact accounted_step (run_stamped (run_weaken Counted.clocked hrun)) ih hstep

/-- What these events add to an element. -/
def addedIn (i : Fin n) (evs : List (Event n)) : ℕ :=
  (evs.map fun
    | .add j count => if i = j then count else 0
    | .call _ => 0).sum

/-- No line is printed. -/
def Quiet (s : State n) (e : Event n) (s' : State n) : Prop :=
  Step Counted s e s' ∧ s'.meter.lines = s.meter.lines

/-- Between two lines the elements grow by what is added. -/
theorem bytes_step {s s' : State n} {e : Event n} (hs : Stamped s) (h : Quiet s e s')
    (i : Fin n) : (s'.meter.bytes i).toNat = (s.meter.bytes i).toNat + addedIn i [e] := by
  obtain ⟨⟨hpolicy, hexec⟩, hlines⟩ := h
  cases e with
  | add j count =>
    obtain rfl := Option.some.inj hexec
    simpa [addedIn] using toNat_add hpolicy i
  | call now =>
    cases exec_called hs hexec with
    | first => rfl
    | print => exact absurd hlines (List.cons_ne_self _ _)
    | skip => rfl

theorem run_quiet {bytes : Fin n → BitVec 64} {evs between : List (Event n)} {s s' : State n}
    (h : Run (Step Counted) (start bytes) evs s) (hquiet : Run Quiet s between s') :
    Stamped s' ∧ s'.meter.lines = s.meter.lines ∧
      ∀ i, (s'.meter.bytes i).toNat = (s.meter.bytes i).toNat + addedIn i between := by
  refine hquiet.invariant (P := fun between s' => Stamped s' ∧ s'.meter.lines = s.meter.lines ∧
    ∀ i, (s'.meter.bytes i).toNat = (s.meter.bytes i).toNat + addedIn i between)
    ⟨run_stamped (run_weaken Counted.clocked h), rfl, fun _ => rfl⟩ ?_
  rintro between s₁ e s₂ ⟨hs, hlines, hbytes⟩ hstep
  refine ⟨stamped_step hs ⟨hstep.1.1.clocked, hstep.1.2⟩, hstep.2.trans hlines, fun i => ?_⟩
  rw [bytes_step hs hstep i, hbytes i, addedIn, addedIn, addedIn, List.map_append, List.sum_append,
    Nat.add_assoc]

end

/-- All bytes that were added are reported or still there, every delta is
positive, and together the deltas are the time since the first call. -/
theorem throughput_lossless {n : ℕ} (bytes : Fin n → BitVec 64) {evs : List (Event n)}
    {s : State n} (h : Run (Step Counted) (start bytes) evs s) :
    (∀ l ∈ s.meter.lines, 0 < l.delta) ∧
    (∀ i, reported s.meter.lines i + (s.meter.bytes i).toNat = (bytes i).toNat + s.added i) ∧
    ∀ l, s.meter.lines.head? = some l → ∃ t, s.first = some t ∧
      (s.meter.lines.map Line.delta).sum = l.now.value - t.value := by
  have hs := run_stamped (run_weaken Counted.clocked h)
  have hacc := run_accounted h
  refine ⟨hacc.positive, hacc.bytes, fun l hl => ?_⟩
  cases hfirst : s.first with
  | none =>
    rw [(hs.unset hfirst).2] at hl
    exact nomatch hl
  | some t =>
    refine ⟨t, rfl, ?_⟩
    rw [hacc.deltas t hfirst, hs.latest t hfirst, hl]
    rfl

/-- A mebibyte in a second and a half, and five bytes after the line. -/
theorem throughput_lossless_mib :
    ∃ s : State 1, Run (Step Counted) (start fun _ => 0)
        [.call ⟨1, 900000000⟩, .add 0 1048576, .call ⟨3, 400000000⟩, .add 0 5] s ∧
      s.meter.lines.map Line.delta = [3 / 2] ∧ (∀ l ∈ s.meter.lines, 0 < l.delta) ∧
      (∀ i, reported s.meter.lines i + (s.meter.bytes i).toNat = (0 : BitVec 64).toNat +
        s.added i) ∧
      ∀ l, s.meter.lines.head? = some l → ∃ t, s.first = some t ∧
        (s.meter.lines.map Line.delta).sum = l.now.value - t.value := by
  have h1 : (⟨1, 900000000⟩ : Timespec).Valid := by decide
  have h2 : (0 : BitVec 64).toNat + 1048576 < 2 ^ 64 := by decide
  have h3 : (⟨3, 400000000⟩ : Timespec).Valid := by decide
  have h4 : (0 : BitVec 64).toNat + 5 < 2 ^ 64 := by decide
  have hrun : Run (Step Counted) (start fun _ : Fin 1 => 0)
      ([] ++ [.call ⟨1, 900000000⟩] ++ [.add 0 1048576] ++ [.call ⟨3, 400000000⟩] ++
        [.add 0 5]) _ :=
    .snoc (.snoc (.snoc (.snoc .nil ⟨h1, rfl⟩) ⟨h2, rfl⟩) ⟨h3, rfl⟩) ⟨h4, rfl⟩
  refine ⟨_, hrun, ?_, throughput_lossless _ hrun⟩
  norm_num [Timespec.value, start]

/-- A line reports what was in the array at some point since the line before, and
what was added after it; it is computed for the time since the line before, or
the first call, and leaves the array empty for the next. -/
theorem line_reports {n : ℕ} (bytes : Fin n → BitVec 64) {evs between : List (Event n)}
    {s s' s'' : State n} {now : Timespec} (h : Run (Step Counted) (start bytes) evs s)
    (hquiet : Run Quiet s between s') (hcall : Step Counted s' (.call now) s'')
    (hprint : s''.meter.lines ≠ s'.meter.lines) :
    ∃ l t, s''.meter.lines = l :: s.meter.lines ∧ l.now = now ∧ s'.first = some t ∧
      l.delta = now.value - ((s.meter.lines.head?.map Line.now).getD t).value ∧
      (∀ i, l.rates i * 1024 * 1024 * l.delta = (s.meter.bytes i).toNat + addedIn i between) ∧
      s''.meter.bytes = fun _ => 0 := by
  obtain ⟨hs, hlines, hbytes⟩ := run_quiet h hquiet
  obtain ⟨hvalid, hexec⟩ := hcall
  cases exec_called hs hexec with
  | first => exact absurd rfl hprint
  | skip => exact absurd rfl hprint
  | @print t hfirst hlt =>
    have hdelta : 0 < (line now s'.meter).delta :=
      sub_pos.2 (Timespec.value_lt (hs.valid t hfirst) hvalid hlt)
    refine ⟨line now s'.meter, t, by rw [hlines], rfl, hfirst, ?_, fun i => ?_, rfl⟩
    · rw [← hlines, ← hs.latest t hfirst]
      rfl
    · rw [line_rate hdelta i, hbytes i, Nat.cast_add]

/-- Five bytes and eight in the second and a half after the first call. -/
theorem line_reports_thirteen :
    ∃ (s : State 1) (l : Line 1), s.meter.lines = [l] ∧ l.delta = 3 / 2 ∧
      l.rates 0 * 1024 * 1024 * l.delta = 13 ∧ s.meter.bytes = fun _ => 0 := by
  have h1 : (⟨1, 900000000⟩ : Timespec).Valid := by decide
  have h2 : (⟨3, 400000000⟩ : Timespec).Valid := by decide
  let s : State 1 := ⟨⟨⟨1, 900000000⟩, fun _ => 0, []⟩, fun _ => 0, some ⟨1, 900000000⟩⟩
  have h3 : Counted s (.add 0 5) := (by decide : (0 : BitVec 64).toNat + 5 < 2 ^ 64)
  have h4 : ((0 : BitVec 64) + BitVec.ofNat 64 5).toNat + 8 < 2 ^ 64 := by decide
  have hstart : Run (Step Counted) (start fun _ => 0) [.call ⟨1, 900000000⟩] s :=
    .single ⟨h1, rfl⟩
  have hquiet : Run Quiet s ([] ++ [.add 0 5] ++ [.add 0 8]) _ :=
    .snoc (.snoc .nil ⟨⟨h3, rfl⟩, rfl⟩) ⟨⟨h4, rfl⟩, rfl⟩
  obtain ⟨l, t, hlines, -, hfirst, hdelta, hrates, hbytes⟩ :=
    line_reports _ hstart hquiet ⟨h2, rfl⟩ (List.cons_ne_self _ _)
  refine ⟨_, l, hlines, ?_, ?_, hbytes⟩
  · rw [hdelta, ← Option.some.inj hfirst]
    norm_num [s, Timespec.value]
  · have hsum : (s.meter.bytes 0).toNat +
        addedIn (0 : Fin 1) ([] ++ [.add 0 5] ++ [.add 0 8]) = 13 := rfl
    rw [hrates 0]
    exact_mod_cast hsum

end SyscallAdvent.Throughput
