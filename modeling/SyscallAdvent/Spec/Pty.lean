import Mathlib.Data.BitVec
import Mathlib.Data.List.DropRight
import SyscallAdvent.Lib.Descriptor

/-! `exec_in_pty`, `configure_terminal` and `restore_terminal` of `15-pty/scribble.c`.
The results of the system calls are given. The terminal that standard input
refers to may also be set by others, such as the program in the pty. -/

namespace SyscallAdvent.Pty

open Descriptor

variable {F : Type*}

/-- A limit on descriptors that POSIX allows. -/
def OpenMax := { n : ℕ // 20 ≤ n }

/-- The duplications, in order. -/
abbrev FileActions := List (ℕ × ℕ)

def ValidFd (openMax : OpenMax) (fd : ℤ) : Prop := 0 ≤ fd ∧ fd < openMax.val

instance (openMax : OpenMax) (fd : ℤ) : Decidable (ValidFd openMax fd) := instDecidableAnd

/-- `posix_spawn_file_actions_adddup2`. The caller ignores that it fails. -/
def adddup2 (openMax : OpenMax) (fa : FileActions) (fd newfd : ℤ) : FileActions :=
  if ValidFd openMax fd ∧ ValidFd openMax newfd then fa ++ [(fd.toNat, newfd.toNat)] else fa

/-- The new process once it runs the program. -/
structure Child (F : Type*) where
  argv : List String
  fds : FdTable F
  sessionLeader : Bool

/-- The child has a copy of the table, to which the actions are applied in turn.
`EBADF` is the error of an action. -/
def posixSpawnp (result : Except ℤ ℤ) (fa : FileActions) (setsid : Bool) (argv : List String)
    (fds : FdTable F) : Except ℤ (ℤ × Child F) :=
  match result with
  | .error e => .error e
  | .ok pid =>
    match fa.foldlM (fun t a => t.dup2 a.1 a.2) fds with
    | none => .error 9
    | some t => .ok (pid, ⟨argv, t.exec, setsid⟩)

/-- `none` is `die`. -/
def execInPty (openMax : OpenMax) (spawn : Except ℤ ℤ) (argv : List String) (ptyFd : ℤ)
    (fds : FdTable F) : Option (ℤ × Child F) :=
  let fa := adddup2 openMax [] ptyFd 0
  let fa := adddup2 openMax fa ptyFd 1
  let fa := adddup2 openMax fa ptyFd 2
  match posixSpawnp spawn fa true argv fds with
  | .error _ => none
  | .ok r => some r

/-- Standard input, output and error are the file of `e`, the rest is inherited. -/
def OnPty (e : Entry F) (fds : FdTable F) (c : Child F) : Prop :=
  ∀ fd, c.fds.get fd = if fd ≤ 2 then some ⟨e.file, false⟩ else fds.exec.get fd

structure Termios where
  iflag : BitVec 32
  oflag : BitVec 32
  cflag : BitVec 32
  lflag : BitVec 32
  line : BitVec 8
  cc : List (BitVec 8)
  ispeed : BitVec 32
  ospeed : BitVec 32
  deriving DecidableEq

def isig : BitVec 32 := 0o1
def icanon : BitVec 32 := 0o2
def echo : BitVec 32 := 0o10

def Termios.raw (t : Termios) : Termios :=
  { t with lflag := t.lflag &&& ~~~(echo ||| icanon ||| isig) }

/-- A static variable before anything is assigned to it. -/
def Termios.zero : Termios := ⟨0, 0, 0, 0, 0, List.replicate 32 0, 0, 0⟩

/-- The settings of the terminal, `orig_termios`, and how often `restore_terminal`
is registered to run at exit. -/
structure Session where
  terminal : Termios
  origTermios : Termios
  handlers : ℕ

def start (t : Termios) : Session := ⟨t, .zero, 0⟩

def restoreTerminal (tcsetattr : Bool) (s : Session) : Session :=
  if tcsetattr then { s with terminal := s.origTermios } else s

/-- Which of the calls succeed. -/
structure Host where
  tcgetattr : Bool
  atexit : Bool
  tcsetattr : Bool

def configureTerminal (host : Host) (s : Session) : Session :=
  let s := if host.tcgetattr then { s with origTermios := s.terminal } else s
  let s := if host.atexit then { s with handlers := s.handlers + 1 } else s
  if host.tcsetattr then { s with terminal := s.origTermios.raw } else s

inductive Event
  | configure (host : Host)
  | change (t : Termios)

def exec (s : Session) : Event → Session
  | .configure host => configureTerminal host s
  | .change t => { s with terminal := t }

def run (evs : List Event) (s : Session) : Session := evs.foldl exec s

/-- `exit` calls all that is registered; `tcsetattr k` is whether call `k` succeeds there. -/
def exit (tcsetattr : ℕ → Bool) (s : Session) : Session :=
  (List.range s.handlers).foldl (fun s k => restoreTerminal (tcsetattr k) s) s

def Event.isConfigure : Event → Bool
  | .configure _ => true
  | .change _ => false

/-- No call of the event fails. -/
def Event.Ok : Event → Prop
  | .configure host => host.tcgetattr ∧ host.atexit ∧ host.tcsetattr
  | .change _ => True

/-- The settings that the events leave, as such. -/
def settings (evs : List Event) (t : Termios) : Termios :=
  evs.foldl (fun t e => match e with
    | .configure _ => t.raw
    | .change t' => t') t

/-- The events before the last call of `configure_terminal`, or all if it is not called. -/
def undone (evs : List Event) : List Event :=
  if evs.any Event.isConfigure then (evs.rdropWhile (! ·.isConfigure)).dropLast else evs

end SyscallAdvent.Pty
