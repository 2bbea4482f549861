import SyscallAdvent.Lib.Descriptor

/-! `start_proc` and the loop of `main` that calls it, in `07-select/select.c` and
in `10-epoll/epoll.c`. The two functions differ in the command that the shell
gets and in the block that is allocated for it. The results of the system calls
are given; a call that succeeds does to the descriptor tables what it must. -/

namespace SyscallAdvent.Filter

open Descriptor

/-- An end of one of the pipes created by `start_proc`, or anything else. -/
inductive File
  | readEnd (pipe : ℕ)
  | writeEnd (pipe : ℕ)
  | other (id : ℕ)
  deriving DecidableEq

/-- What a call acquires and has to release itself. -/
inductive Resource
  | stdbufCmd
  | fileActions
  deriving DecidableEq

structure Proc where
  cmd : String
  pid : ℤ
  stdin : ℕ
  stdout : ℕ

/-- `pipes` counts the pipes created so far, `live` is what was acquired and not released. -/
structure Parent where
  fds : FdTable File
  pipes : ℕ
  live : List Resource
  errno : ℤ

/-- A filter once it runs the shell. -/
structure Child where
  argv : List String
  fds : FdTable File

/-- The results of the system calls of one `start_proc`, or their error numbers. -/
structure Host where
  pipeStdin : Except ℤ Unit
  pipeStdout : Except ℤ Unit
  spawn : Except ℤ ℤ

/-- No system call fails. -/
def Host.Ok (host : Host) : Prop :=
  ∃ pid, host.pipeStdin = .ok () ∧ host.pipeStdout = .ok () ∧ host.spawn = .ok pid

/-- `pipe2(fds, O_CLOEXEC)` -/
def pipe2 (result : Except ℤ Unit) (p : Parent) : Except ℤ (ℕ × ℕ) × Parent :=
  match result with
  | .error e => (.error e, { p with errno := e })
  | .ok () =>
    let (fds, t) := p.fds.installPair ⟨.readEnd p.pipes, true⟩ ⟨.writeEnd p.pipes, true⟩
    (.ok fds, { p with fds := t, pipes := p.pipes + 1 })

/-- The child has a copy of the table, to which the actions are applied in turn
before it executes the program. `EBADF` is the error of an action. -/
def posixSpawn (result : Except ℤ ℤ) (fa : List (ℕ × ℕ)) (argv : List String)
    (fds : FdTable File) : Except ℤ (ℤ × Child) :=
  match result with
  | .error e => .error e
  | .ok pid =>
    match fa.foldlM (fun t a => t.dup2 a.1 a.2) fds with
    | none => .error 9
    | some t => .ok (pid, ⟨argv, t.exec⟩)

/-- What a call of `start_proc` returns and leaves behind. -/
structure Started where
  rc : ℤ
  proc : Proc
  parent : Parent
  child : Option Child

/-- `blocks` are allocated at the beginning and hold the command. -/
def startProcWith (shellCmd : String → String) (blocks : List Resource) (host : Host)
    (proc : Proc) (p : Parent) : Started :=
  let p := { p with live := blocks ++ p.live }
  let argv := ["sh", "-c", shellCmd proc.cmd]
  match pipe2 host.pipeStdin p with
  | (.error _, p) => ⟨-1, proc, p, none⟩
  | (.ok stdin, p) =>
    match pipe2 host.pipeStdout p with
    | (.error _, p) => ⟨-1, proc, p, none⟩
    | (.ok stdout, p) =>
      let p := { p with live := .fileActions :: p.live }
      let fa := [(stdin.1, 0), (stdout.2, 1)]
      match posixSpawn host.spawn fa argv p.fds with
      | .ok (pid, child) =>
        let p := { p with live := (p.live.erase .fileActions).diff blocks }
        let p := { p with fds := (p.fds.close stdin.1).close stdout.2 }
        ⟨0, { proc with pid := pid, stdin := stdin.2, stdout := stdout.1 }, p, some child⟩
      | .error e =>
        ⟨-1, proc, { p with errno := e, live := p.live.diff blocks }, none⟩

/-- `start_proc` of `07-select`: the command is wrapped by `stdbuf`. -/
def Select.startProc : Host → Proc → Parent → Started :=
  startProcWith (fun cmd => "stdbuf -oL " ++ cmd) [.stdbufCmd]

/-- `start_proc` of `10-epoll`. -/
def Epoll.startProc : Host → Proc → Parent → Started := startProcWith id []

/-- A call that fails has the parent's descriptors as they were, and has released
what it acquired. -/
def LeavesNothing (p : Parent) (r : Started) : Prop :=
  r.rc = -1 → r.parent.fds = p.fds ∧ r.parent.live = p.live

/-- The array `procs` as far as it is set, the filters in the same order, and the parent. -/
structure Filters where
  procs : List Proc
  children : List Child
  parent : Parent

/-- The loop of `main` over the commands; `none` is `die`. `hosts i` are the
system calls of filter `i`, and `mem i` is what `malloc` gave for `procs[i]`. -/
def startFilters (startProc : Host → Proc → Parent → Started) (hosts : ℕ → Host)
    (mem : ℕ → Proc) : List String → Filters → Option Filters
  | [], s => some s
  | cmd :: argv, s =>
    let i := s.procs.length
    let r := startProc (hosts i) { mem i with cmd := cmd } s.parent
    if r.rc < 0 then none
    else startFilters startProc hosts mem argv
      ⟨s.procs ++ [r.proc], s.children ++ r.child.toList, r.parent⟩

/-- A line that `main` prints on standard error, and what descriptor 2 then refers to. -/
structure Message where
  text : String
  file : Option File

/-- The lines about the filters that are started, one after the other. -/
def startedMessages (startProc : Host → Proc → Parent → Started) (hosts : ℕ → Host)
    (mem : ℕ → Proc) : List String → Filters → List Message
  | [], _ => []
  | cmd :: argv, s =>
    let i := s.procs.length
    let r := startProc (hosts i) { mem i with cmd := cmd } s.parent
    if r.rc < 0 then []
    else
      let text := "[" ++ r.proc.cmd ++ "] Started filter as pid " ++ toString r.proc.pid ++ "\n"
      ⟨text, (r.parent.fds.get 2).map Entry.file⟩ ::
        startedMessages startProc hosts mem argv
          ⟨s.procs ++ [r.proc], s.children ++ r.child.toList, r.parent⟩

/-- What descriptor 2 refers to once a filter is started, from the parent's table
and the number of pipes before. If it is closed, a pipe may take it. -/
def stderrOf (fds : FdTable File) (pipes : ℕ) : Option File :=
  match fds.get 2 with
  | some e => some e.file
  | none =>
    match (fds.get 0).isSome, (fds.get 1).isSome with
    | true, true => none
    | false, false => some (.readEnd (pipes + 1))
    | _, _ => some (.writeEnd pipes)

end SyscallAdvent.Filter
