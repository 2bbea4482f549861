import SyscallAdvent.Proofs.FilterWiring

/-! What a failed `start_proc` leaves behind: open pipes after any failure but
the first, and in `select.c` after the first the command. -/

namespace SyscallAdvent.Filter

open Descriptor

theorem startProcWith_leavesNothing_iff (shellCmd : String → String) (blocks : List Resource)
    (host : Host) (proc : Proc) (p : Parent) :
    LeavesNothing p (startProcWith shellCmd blocks host proc p) ↔
      host.Ok ∨ (∃ e, host.pipeStdin = .error e) ∧ blocks = [] := by
  by_cases hok : host.Ok
  · refine iff_of_true (fun hrc => ?_) (Or.inl hok)
    rw [(startProcWith_ok hok).1] at hrc
    exact absurd hrc (by decide)
  cases hin : host.pipeStdin with
  | error e =>
    simp [LeavesNothing, startProcWith_stdin_fails hin, hok]
  | ok u =>
    have hlater : (startProcWith shellCmd blocks host proc p).rc = -1 ∧ _ :=
      startProcWith_later_fails hin hok
    obtain ⟨hrc, fd, hfree, hopen⟩ := hlater
    refine iff_of_false (fun hleaves => ?_) (by simp [hok])
    rw [(hleaves hrc).1] at hopen
    exact hopen hfree

/-- `start_proc` of `07-select` never fails cleanly, and that of `10-epoll` only
if it fails at the first pipe. -/
theorem failed_start_leaves_nothing_iff (host : Host) (proc : Proc) (p : Parent) :
    (LeavesNothing p (Select.startProc host proc p) ↔ host.Ok) ∧
      (LeavesNothing p (Epoll.startProc host proc p) ↔
        host.Ok ∨ ∃ e, host.pipeStdin = .error e) := by
  refine ⟨?_, ?_⟩
  · rw [Select.startProc, startProcWith_leavesNothing_iff]
    simp
  · rw [Epoll.startProc, startProcWith_leavesNothing_iff]
    simp

/-- `EMFILE` at the second pipe: the first one stays open. -/
theorem failed_start_leaves_pipe :
    let host : Host := ⟨.ok (), .error 24, .ok 7⟩
    let proc : Proc := ⟨"sort", 0, 0, 0⟩
    let p : Parent := ⟨⟨fun _ => none, 0, fun _ _ => rfl⟩, 0, [], 0⟩
    ¬ LeavesNothing p (Select.startProc host proc p) ∧
      ¬ LeavesNothing p (Epoll.startProc host proc p) := by
  intro host proc p
  have hok : ¬ host.Ok := by simp [host, Host.Ok]
  refine ⟨?_, ?_⟩
  · rw [Select.startProc, startProcWith_leavesNothing_iff]
    simp [hok]
  · rw [Epoll.startProc, startProcWith_leavesNothing_iff]
    simp [hok, host]

end SyscallAdvent.Filter
