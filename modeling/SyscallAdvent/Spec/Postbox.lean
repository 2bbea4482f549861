import Mathlib.Data.Int.Notation
import Mathlib.Data.List.Basic
import Mathlib.Tactic.Common

/-! `main` of `12-postbox/postbox.c` and of `13-postbox/postbox.c`: the table of
backends, its initialisation, and the dispatch of events. The two programs differ
in the table only. The results of the system calls and of the prepare functions
are given. -/

namespace SyscallAdvent.Postbox

inductive Prepare
  | fifoPrepare
  | domainPrepare
  | signalfdPrepare
  | mqueuePrepare
  deriving DecidableEq

inductive Handle
  | fifoHandle
  | domainAccept
  | signalfdHandle
  | mqueueHandle
  | domainRecv
  deriving DecidableEq

/-- `struct postbox`; the last entry of the table has nothing to prepare. -/
structure Box where
  fd : ℤ
  prepare : Option Prepare
  handle : Handle
  deriving DecidableEq

def boxes12 : List Box :=
  [⟨-1, some .fifoPrepare, .fifoHandle⟩,
    ⟨-1, some .domainPrepare, .domainAccept⟩,
    ⟨-1, none, .domainRecv⟩]

def boxes13 : List Box :=
  [⟨-1, some .fifoPrepare, .fifoHandle⟩,
    ⟨-1, some .domainPrepare, .domainAccept⟩,
    ⟨-1, some .signalfdPrepare, .signalfdHandle⟩,
    ⟨-1, some .mqueuePrepare, .mqueueHandle⟩,
    ⟨-1, none, .domainRecv⟩]

/-- `struct epoll_event`, with the descriptor as its data. -/
structure Event where
  fd : ℤ
  events : ℕ
  deriving DecidableEq

/-- A call of a handler, with its arguments. -/
structure Call where
  handle : Handle
  epollFd : ℤ
  fd : ℤ
  events : ℕ
  deriving DecidableEq

/-- What `epoll_create1` and the prepare functions return. -/
structure Host where
  epollFd : ℤ
  prepare : Prepare → ℤ

/-- The loop that initializes all backends. -/
def initBoxes (prepare : Prepare → ℤ) (boxes : List Box) : List Box :=
  boxes.map fun b =>
    match b.prepare with
    | some f => { b with fd := prepare f }
    | none => b

/-- The first box that matches handles the event. -/
def dispatch (boxes : List Box) (epollFd : ℤ) (e : Event) : Option Call :=
  (boxes.find? fun b => b.fd == e.fd || b.fd == -1).map fun b => ⟨b.handle, epollFd, e.fd, e.events⟩

/-- The results of `epoll_wait`; an error has no events. -/
abbrev Wait := Except ℤ (List Event)

def Wait.received : Wait → List Event
  | .error _ => []
  | .ok event => event

/-- The calls that `main` makes for these results of `epoll_wait`; `none` is `die`. -/
def main (boxes : List Box) (host : Host) (waits : List Wait) : Option (List Call) :=
  if host.epollFd = -1 then none
  else
    let boxes := initBoxes host.prepare boxes
    some (waits.flatMap fun wait => wait.received.filterMap (dispatch boxes host.epollFd))

/-- What the prepare function of a box returned. -/
def Box.prepared (prepare : Prepare → ℤ) (b : Box) : Option ℤ := b.prepare.map prepare

/-- The box that was prepared with the descriptor, or else the last one. -/
def rightBox (prepare : Prepare → ℤ) (boxes : List Box) (fd : ℤ) : Option Box :=
  (boxes.find? fun b => b.prepared prepare == some fd).or boxes.getLast?

def rightCall (prepare : Prepare → ℤ) (boxes : List Box) (epollFd : ℤ) (e : Event) :
    Option Call :=
  (rightBox prepare boxes e.fd).map fun b => ⟨b.handle, epollFd, e.fd, e.events⟩

/-- Each event is handled once, by the right box, and no box that could not be
prepared handles anything. -/
def RightPostbox (boxes : List Box) (host : Host) (waits : List Wait) : Prop :=
  ∃ calls, main boxes host waits = some calls ∧
    calls.map some =
      (waits.flatMap Wait.received).map (rightCall host.prepare boxes host.epollFd) ∧
    ∀ c ∈ calls, ∀ b ∈ boxes, b.prepared host.prepare = some (-1) → c.handle ≠ b.handle

/-- No box before the one of the descriptor could not be prepared. If there is
no such box, all come before it. -/
def Clear (prepare : Prepare → ℤ) (boxes : List Box) (fd : ℤ) : Prop :=
  ∀ b ∈ boxes.takeWhile (fun b => b.prepared prepare != some fd), b.prepared prepare ≠ some (-1)

end SyscallAdvent.Postbox
