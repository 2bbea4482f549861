import SyscallAdvent.Proofs.FilterWiring

/-! Where `main` prints that a filter was started. A parent without standard error
may have a pipe at descriptor 2 from the first filter on, and then its lines become
the input of that filter. -/

namespace SyscallAdvent.Filter

open Descriptor

/-- A successful call keeps the second and the third lowest descriptor that was free. -/
structure Ends (fds : FdTable File) (stdin stdout : ℕ) : Prop where
  stdinFree : fds.get stdin = none
  stdoutFree : fds.get stdout = none
  ordered : stdin < stdout
  lowest : ∃ fd, fd < stdin ∧ fds.get fd = none ∧
    ∀ x < stdout, fds.get x = none → x = fd ∨ x = stdin

section

variable {shellCmd : String → String} {blocks : List Resource} {host : Host} {proc : Proc}
  {p : Parent}

theorem startProcWith_ends (h : ¬ (startProcWith shellCmd blocks host proc p).rc < 0) :
    Ends p.fds (startProcWith shellCmd blocks host proc p).proc.stdin
      (startProcWith shellCmd blocks host proc p).proc.stdout := by
  obtain ⟨r₁, w₁, t₁, hpair₁, hr₁, hw₁, hne₁, -, hget₁⟩ :=
    p.fds.installPair_spec ⟨.readEnd p.pipes, true⟩ ⟨.writeEnd p.pipes, true⟩
  obtain ⟨r₂, w₂, t₂, hpair₂, hr₂, -⟩ :=
    t₁.installPair_spec ⟨.readEnd (p.pipes + 1), true⟩ ⟨.writeEnd (p.pipes + 1), true⟩
  have hproc : (startProcWith shellCmd blocks host proc p).proc.stdin = w₁ ∧
      (startProcWith shellCmd blocks host proc p).proc.stdout = r₂ := by
    simp only [startProcWith] at h ⊢
    cases hin : host.pipeStdin with
    | error e => simp [hin, pipe2] at h
    | ok u =>
      cases hout : host.pipeStdout with
      | error e => simp [hin, hout, pipe2] at h
      | ok u =>
        simp only [hin, hout, pipe2, hpair₁, hpair₂] at h ⊢
        split at h
        · exact ⟨rfl, rfl⟩
        · simp at h
  obtain ⟨hlt₁, hlow₁⟩ := FdTable.installPair_order hpair₁
  obtain ⟨hlt₂, hlow₂⟩ := FdTable.installPair_order hpair₂
  have hfree : ∀ fd, t₁.get fd = none ↔ fd ≠ w₁ ∧ fd ≠ r₁ ∧ p.fds.get fd = none := by
    intro fd
    rw [hget₁]
    split_ifs <;> simp_all
  obtain ⟨hr₂w₁, hr₂r₁, hr₂free⟩ := (hfree r₂).1 hr₂
  have hlt : w₁ < r₂ := by
    by_contra hle
    exact hr₂r₁ (hlow₁ r₂ (by omega) hr₂free)
  rw [hproc.1, hproc.2]
  refine ⟨hw₁, hr₂free, hlt, r₁, hlt₁, hr₁, fun x hx hget => ?_⟩
  by_contra hne
  have hfree₁ : t₁.get x = none := (hfree x).2 (by tauto)
  have := hlow₂ x (by omega) hfree₁
  omega

end

/-- Descriptor 2 becomes an end of a pipe if it is closed and another below it is. -/
theorem stderrOf_step {p : Parent} {r : Started} {c : Child} (hr : Wired p r c)
    (hends : Ends p.fds r.proc.stdin r.proc.stdout) :
    (r.parent.fds.get 2).map Entry.file = stderrOf p.fds p.pipes ∧
      stderrOf r.parent.fds r.parent.pipes = stderrOf p.fds p.pipes := by
  obtain ⟨hin, hout, hlt, r₁, hr₁, hr₁free, hlow⟩ := hends
  have hopen : ∀ {x e}, p.fds.get x = some e →
      x ≠ r₁ ∧ x ≠ r.proc.stdin ∧ x ≠ r.proc.stdout := by
    intro x e hx
    refine ⟨?_, ?_, ?_⟩ <;> rintro rfl <;> simp_all
  have hkeep : ∀ {x e}, p.fds.get x = some e → r.parent.fds.get x = some e := by
    intro x e hx
    rw [hr.parentGet, if_neg (hopen hx).2.1, if_neg (hopen hx).2.2, hx]
  cases h2 : p.fds.get 2 with
  | some e => simp [stderrOf, hkeep h2, h2]
  | none =>
    have hlow2 : 2 < r.proc.stdout → 2 = r₁ ∨ 2 = r.proc.stdin := fun hlt => hlow 2 hlt h2
    cases h0 : p.fds.get 0 with
    | some e₀ =>
      have := hopen h0
      cases h1 : p.fds.get 1 with
      | some e₁ =>
        -- no descriptor up to 2 is kept
        have := hopen h1
        have hget2 : r.parent.fds.get 2 = none := by
          rw [hr.parentGet, if_neg (by omega), if_neg (by omega), h2]
        simp [stderrOf, hget2, hkeep h0, hkeep h1, h0, h1, h2]
      | none =>
        have hlow1 := hlow 1 (by omega) h1
        have hstdin : 2 = r.proc.stdin := by omega
        have hget2 : r.parent.fds.get 2 = some ⟨.writeEnd p.pipes, true⟩ := by
          rw [hr.parentGet, if_pos hstdin]
        simp [stderrOf, hget2, h0, h1, h2]
    | none =>
      have hlow0 := hlow 0 (by omega) h0
      cases h1 : p.fds.get 1 with
      | some e₁ =>
        have := hopen h1
        have hstdin : 2 = r.proc.stdin := by omega
        have hget2 : r.parent.fds.get 2 = some ⟨.writeEnd p.pipes, true⟩ := by
          rw [hr.parentGet, if_pos hstdin]
        simp [stderrOf, hget2, h0, h1, h2]
      | none =>
        have hlow1 := hlow 1 (by omega) h1
        have hstdout : 2 = r.proc.stdout := by omega
        have hget2 : r.parent.fds.get 2 = some ⟨.readEnd (p.pipes + 1), true⟩ := by
          rw [hr.parentGet, if_neg (by omega), if_pos hstdout]
        simp [stderrOf, hget2, h0, h1, h2]

/-- All lines go where the first one goes. -/
theorem startedMessages_file {shellCmd : String → String} {blocks : List Resource}
    {hosts : ℕ → Host} {mem : ℕ → Proc} {argv : List String} {s : Filters} :
    ∀ m ∈ startedMessages (startProcWith shellCmd blocks) hosts mem argv s,
      m.file = stderrOf s.parent.fds s.parent.pipes := by
  induction argv generalizing s with
  | nil => simp [startedMessages]
  | cons cmd argv ih =>
    intro m hm
    simp only [startedMessages] at hm
    split_ifs at hm with hrc
    · cases hm
    obtain ⟨c, hwired⟩ := startProcWith_wired hrc
    obtain ⟨hfirst, hkept⟩ := stderrOf_step hwired (startProcWith_ends hrc)
    rcases List.mem_cons.1 hm with rfl | hm
    · exact hfirst
    · rw [ih m hm]
      exact hkept

theorem stderrOf_eq_writeEnd_iff {p : Parent} (hfresh : p.Fresh) :
    (∃ q, p.pipes ≤ q ∧ stderrOf p.fds p.pipes = some (.writeEnd q)) ↔
      p.fds.get 2 = none ∧ (p.fds.get 0 = none ↔ p.fds.get 1 ≠ none) := by
  unfold stderrOf
  cases h2 : p.fds.get 2 with
  | some e =>
    refine iff_of_false ?_ (by simp)
    rintro ⟨q, hq, hfile⟩
    have := hfresh 2 e h2 q (by simp_all [File.pipe])
    omega
  | none =>
    cases p.fds.get 0 <;> cases p.fds.get 1 <;> simp

/-- The lines about the started filters all go to one file. It is the input of a
filter exactly if standard error and one of the other two streams are closed at the start. -/
theorem started_messages_misdirected_iff {startProc : Host → Proc → Parent → Started}
    (hprog : startProc = Select.startProc ∨ startProc = Epoll.startProc) (hosts : ℕ → Host)
    (mem : ℕ → Proc) (argv : List String) {p : Parent} (hfresh : p.Fresh) :
    ∀ m ∈ startedMessages startProc hosts mem argv ⟨[], [], p⟩,
      m.file = stderrOf p.fds p.pipes ∧
        ((∃ q, p.pipes ≤ q ∧ m.file = some (.writeEnd q)) ↔
          p.fds.get 2 = none ∧ (p.fds.get 0 = none ↔ p.fds.get 1 ≠ none)) := by
  intro m hm
  have hfile : m.file = stderrOf p.fds p.pipes := by
    rcases hprog with rfl | rfl
    · exact startedMessages_file m hm
    · exact startedMessages_file m hm
  refine ⟨hfile, ?_⟩
  rw [hfile]
  exact stderrOf_eq_writeEnd_iff hfresh

/-- Only descriptor 0 is open. -/
def stdinOnly : FdTable File :=
  ⟨fun fd => if fd = 0 then some ⟨.other 0, false⟩ else none, ⟨1, fun fd h => if_neg (by omega)⟩⟩

theorem started_messages_misdirected_stdinOnly :
    ∃ m ∈ startedMessages Epoll.startProc (fun _ => ⟨.ok (), .ok (), .ok 7⟩)
        (fun _ => ⟨"", 0, 0, 0⟩) ["sort", "wc"] ⟨[], [], ⟨stdinOnly, 0, [], 0⟩⟩,
      ∃ q, 0 ≤ q ∧ m.file = some (.writeEnd q) := by
  have hfresh : Parent.Fresh ⟨stdinOnly, 0, [], 0⟩ := by
    intro fd e he q hq
    simp only [stdinOnly] at he
    split_ifs at he
    obtain rfl := Option.some.inj he
    simp [File.pipe] at hq
  have hne : (startedMessages Epoll.startProc (fun _ => ⟨.ok (), .ok (), .ok 7⟩)
      (fun _ => ⟨"", 0, 0, 0⟩) ["sort", "wc"] ⟨[], [], ⟨stdinOnly, 0, [], 0⟩⟩).length = 2 := by
    decide +kernel
  obtain ⟨m, hm⟩ := List.exists_mem_of_length_pos (by rw [hne]; decide)
  exact ⟨m, hm, ((started_messages_misdirected_iff (Or.inr rfl) _ _ _ hfresh m hm).2).2
    (by simp [stdinOnly])⟩

end SyscallAdvent.Filter
