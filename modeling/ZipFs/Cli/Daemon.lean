import ZipFs.Cli.Syslog
import Mathlib.Logic.Function.Basic

/-!
# Two processes and a pipe

`daemonize` of `src/main.rs`, with `await_child`, `send`, `detach` and
`redirect_standard_streams`. The first process forks once the mount is ready. The child
leaves the terminal behind and then says over a pipe that it has, or why it could not; the
first process waits for that and leaves with an exit code.

The two processes are interleaved call by call. Every system call can fail, those that wait
can be interrupted, reads and writes can be cut short, and either process can be killed at
any moment. Which descriptors a process has open matters: a reader sees the end of a pipe
only when nobody has its write end open any more, and a child that pointed the wrong
descriptor at `/dev/null` would talk to nobody.

`strerror` and `String::from_utf8_lossy` are parameters. `sent`, `verdict` and `broken`
record what happened and are read by no step.
-/

namespace ZipFs.Cli

/-! ## Processes -/

/-- What a descriptor stands for. -/
inductive File where
  | pipeRead
  | pipeWrite
  | null
  /-- Anything else that was open before. -/
  | other (n : Nat)
  deriving DecidableEq, Repr

def STDERR_FILENO : Nat := 2

structure Process where
  fds : Nat → Option File
  /-- Leads a session of its own. -/
  leader : Bool
  /-- Its working directory is `/`. -/
  atRoot : Bool

namespace Process

def setFd (p : Process) (fd : Nat) (file : Option File) : Process :=
  { p with fds := Function.update p.fds fd file }

/-- What a process that has ended has open. -/
def gone (p : Process) : Process := { p with fds := fun _ => none }

def Open (p : Process) (file : File) : Prop := ∃ fd, p.fds fd = some file

end Process

/-- The byte the child sends once the mount is its own to serve. -/
def READY : UInt8 := 0

/-- `std::io::Error::to_string` of an error number. -/
def errorText (strerror : Nat → Bytes) (errno : Nat) : Bytes :=
  strerror errno ++ ascii (" (os error " ++ toString errno ++ ")")

/-- Where the first process is, once there are two. -/
inductive Parent where
  /-- It closes its write end. -/
  | closing
  /-- In the loop of `await_child`, with what it has read so far. -/
  | waiting (message : Bytes)
  /-- It has left through `_exit`, with what it wrote to standard error. -/
  | exited (code : Nat) (printed : Option Bytes)
  | killed
  deriving DecidableEq

/-- Where the child is. -/
inductive Child where
  /-- It closes its read end. -/
  | closing
  | setsid
  | chdir
  | openNull
  /-- In the loop over the standard streams, with those that are left. -/
  | dup (null : Nat) (targets : List Nat)
  /-- A `dup2` has failed, so `null` is closed. -/
  | abandon (null errno : Nat)
  /-- In `send`, with the bytes that are left and what `detach` returned. -/
  | sending (rest : Bytes) (detached : Except Nat Unit)
  | closingPipe (detached : Except Nat Unit)
  /-- `daemonize` has returned: the child serves, or it drops the session. -/
  | returned (detached : Except Nat Unit)
  | killed
  deriving DecidableEq

structure Pair where
  readFd : Nat
  writeFd : Nat
  parent : Process
  parentAt : Parent
  child : Process
  childAt : Child
  /-- What is in the pipe. -/
  pipe : Bytes
  /-- All that was written to it. -/
  sent : Bytes
  /-- What `detach` returned, once it has. -/
  verdict : Option (Except Nat Unit)
  /-- A read or a write of the pipe has failed. -/
  broken : Bool

inductive Daemon where
  | start (p : Process)
  | piped (p : Process) (readFd writeFd : Nat)
  /-- `DetachError::Local`: there is still one process only. -/
  | failed (p : Process) (errno : Nat)
  | forked (s : Pair)

/-! ## Steps -/

section Steps

variable (strerror : Nat → Bytes) (lossy : Bytes → Bytes) (capacity : Nat)

/-- What `await_child` writes to standard error when it has read all there is. -/
def lastWords (message : Bytes) : Bytes :=
  if message = [] then
    ascii "zipfs: the process serving the mount stopped before it was ready\n"
  else ascii "zipfs: " ++ lossy message ++ ascii "\n"

/-- What the child has to say. -/
def verdictText : Except Nat Unit → Bytes
  | .ok () => [READY]
  | .error errno => errorText strerror errno

/-- The child goes on to `send` once `detach` has returned. -/
def Pair.detached (s : Pair) (verdict : Except Nat Unit) : Pair :=
  { s with verdict := some verdict, childAt := .sending (verdictText strerror verdict) verdict }

/-- A process that exits has nothing open any more. -/
def Pair.exit (s : Pair) (code : Nat) (printed : Option Bytes) : Pair :=
  { s with parent := s.parent.gone, parentAt := .exited code printed }

/-- What the loop of `await_child` makes of some bytes. -/
def Pair.receive (s : Pair) (message taken rest : Bytes) : Pair :=
  if message = [] ∧ taken.head? = some READY then { s with pipe := rest }.exit 0 none
  else { s with pipe := rest, parentAt := .waiting (message ++ taken) }

/-- How a step comes about. -/
inductive Kind where
  | runs
  /-- A system call fails. -/
  | fails
  /-- A signal stops a wait, which is taken up again. -/
  | interrupted
  | killed
  deriving DecidableEq

inductive ParentStep : Kind → Pair → Pair → Prop where
  | close {s : Pair} : s.parentAt = .closing →
      ParentStep .runs s { s with
        parent := s.parent.setFd s.writeFd none, parentAt := .waiting [] }
  | read {s : Pair} (message taken rest : Bytes) : s.parentAt = .waiting message →
      s.parent.fds s.readFd = some .pipeRead → s.pipe = taken ++ rest → taken ≠ [] →
      taken.length ≤ 256 → ParentStep .runs s (s.receive message taken rest)
  /-- `read` returns zero: the pipe is empty and nobody has its write end. -/
  | eof {s : Pair} (message : Bytes) : s.parentAt = .waiting message →
      s.parent.fds s.readFd = some .pipeRead → s.pipe = [] →
      ¬ s.parent.Open .pipeWrite → ¬ s.child.Open .pipeWrite →
      ParentStep .runs s (s.exit 1 (some (lastWords lossy message)))
  | fail {s : Pair} (message : Bytes) : s.parentAt = .waiting message →
      ParentStep .fails s ({ s with broken := true }.exit 1 (some (lastWords lossy message)))
  | interrupted {s : Pair} (message : Bytes) : s.parentAt = .waiting message →
      ParentStep .interrupted s s
  | kill {s : Pair} : (∀ code printed, s.parentAt ≠ .exited code printed) → s.parentAt ≠ .killed →
      ParentStep .killed s { s with parent := s.parent.gone, parentAt := .killed }

inductive ChildStep : Kind → Pair → Pair → Prop where
  | close {s : Pair} : s.childAt = .closing →
      ChildStep .runs s { s with child := s.child.setFd s.readFd none, childAt := .setsid }
  | setsid {s : Pair} : s.childAt = .setsid →
      ChildStep .runs s { s with child := { s.child with leader := true }, childAt := .chdir }
  | setsidFail {s : Pair} (errno : Nat) : s.childAt = .setsid →
      ChildStep .fails s (s.detached strerror (.error errno))
  | chdir {s : Pair} : s.childAt = .chdir →
      ChildStep .runs s { s with child := { s.child with atRoot := true }, childAt := .openNull }
  | chdirFail {s : Pair} (errno : Nat) : s.childAt = .chdir →
      ChildStep .fails s (s.detached strerror (.error errno))
  | openNull {s : Pair} (null : Nat) : s.childAt = .openNull → s.child.fds null = none →
      ChildStep .runs s { s with
        child := s.child.setFd null (some .null), childAt := .dup null [0, 1, STDERR_FILENO] }
  | openFail {s : Pair} (errno : Nat) : s.childAt = .openNull →
      ChildStep .fails s (s.detached strerror (.error errno))
  | dup {s : Pair} (null target : Nat) (targets : List Nat) :
      s.childAt = .dup null (target :: targets) →
      ChildStep .runs s { s with
        child := s.child.setFd target (s.child.fds null), childAt := .dup null targets }
  | dupFail {s : Pair} (null target : Nat) (targets : List Nat) (errno : Nat) :
      s.childAt = .dup null (target :: targets) →
      ChildStep .fails s { s with childAt := .abandon null errno }
  | abandon {s : Pair} (null errno : Nat) : s.childAt = .abandon null errno →
      ChildStep .runs s
        ({ s with child := s.child.setFd null none }.detached strerror (.error errno))
  /-- The loop is over, and `null` is closed unless it is a standard stream itself. -/
  | redirected {s : Pair} (null : Nat) : s.childAt = .dup null [] →
      ChildStep .runs s ({ s with
        child := if STDERR_FILENO < null then s.child.setFd null none else s.child }.detached
          strerror (.ok ()))
  /-- A write waits while the pipe is full, and may take fewer bytes than it was given. -/
  | write {s : Pair} (rest : Bytes) (v : Except Nat Unit) (n : Nat) :
      s.childAt = .sending rest v → s.child.fds s.writeFd = some .pipeWrite →
      s.parent.Open .pipeRead → 0 < n → n ≤ rest.length → s.pipe.length + n ≤ capacity →
      ChildStep .runs s { s with
        pipe := s.pipe ++ rest.take n, sent := s.sent ++ rest.take n,
        childAt := .sending (rest.drop n) v }
  /-- What is not the pipe swallows everything. -/
  | writeElsewhere {s : Pair} (rest : Bytes) (v : Except Nat Unit) :
      s.childAt = .sending rest v → s.child.fds s.writeFd ≠ some .pipeWrite → rest ≠ [] →
      ChildStep .runs s { s with childAt := .sending [] v }
  /-- A write that fails, or that takes nothing. -/
  | writeFail {s : Pair} (rest : Bytes) (v : Except Nat Unit) : s.childAt = .sending rest v →
      rest ≠ [] → ChildStep .fails s { s with broken := true, childAt := .closingPipe v }
  | writeInterrupted {s : Pair} (rest : Bytes) (v : Except Nat Unit) :
      s.childAt = .sending rest v → rest ≠ [] → ChildStep .interrupted s s
  | written {s : Pair} (v : Except Nat Unit) : s.childAt = .sending [] v →
      ChildStep .runs s { s with childAt := .closingPipe v }
  | closePipe {s : Pair} (v : Except Nat Unit) : s.childAt = .closingPipe v →
      ChildStep .runs s { s with child := s.child.setFd s.writeFd none, childAt := .returned v }
  | kill {s : Pair} : s.childAt ≠ .killed →
      ChildStep .killed s { s with child := s.child.gone, childAt := .killed }

/-- The two processes just after the fork. A child leads nothing. -/
def Pair.fresh (p : Process) (readFd writeFd : Nat) : Pair where
  readFd := readFd
  writeFd := writeFd
  parent := p
  parentAt := .closing
  child := { p with leader := false }
  childAt := .closing
  pipe := []
  sent := []
  verdict := none
  broken := false

inductive DaemonStep : Kind → Daemon → Daemon → Prop where
  | pipe (p : Process) (r w : Nat) : r ≠ w → p.fds r = none → p.fds w = none →
      DaemonStep .runs (.start p)
        (.piped ((p.setFd r (some .pipeRead)).setFd w (some .pipeWrite)) r w)
  | pipeFail (p : Process) (errno : Nat) : DaemonStep .fails (.start p) (.failed p errno)
  | fork (p : Process) (r w : Nat) : DaemonStep .runs (.piped p r w) (.forked (.fresh p r w))
  | forkFail (p : Process) (r w errno : Nat) :
      DaemonStep .fails (.piped p r w) (.failed ((p.setFd r none).setFd w none) errno)
  | parent {k : Kind} {s s' : Pair} : ParentStep lossy k s s' →
      DaemonStep k (.forked s) (.forked s')
  | child {k : Kind} {s s' : Pair} : ChildStep strerror capacity k s s' →
      DaemonStep k (.forked s) (.forked s')

end Steps

/-! ## What holds of the two -/

/-- A process as the program finds it: the standard streams are open, as the runtime sees to
before `main`, and there is no pipe yet. -/
structure Process.Fit (p : Process) : Prop where
  streams : ∀ n ≤ STDERR_FILENO, p.fds n ≠ none
  /-- There are always descriptors left. -/
  room : ∃ top, ∀ fd, top ≤ fd → p.fds fd = none
  noRead : ¬ p.Open .pipeRead
  noWrite : ¬ p.Open .pipeWrite

/-- The child has left the terminal behind, and has otherwise open what the first process had. -/
structure Detached (p : Process) (writeFd : Nat) (child : Process) : Prop where
  leader : child.leader = true
  atRoot : child.atRoot = true
  streams : ∀ n ≤ STDERR_FILENO, child.fds n = some .null
  others : ∀ fd, STDERR_FILENO < fd → fd ≠ writeFd → child.fds fd = p.fds fd

/-- The descriptor of `/dev/null`, while the child has one to close. -/
def Child.null : Child → Option Nat
  | .dup null _ | .abandon null _ => some null
  | _ => none

/-- It has not yet closed its end of the pipe. -/
def Child.talking : Child → Bool
  | .returned _ | .killed => false
  | _ => true

/-- It has yet to hear from `detach`. -/
def Child.early : Child → Bool
  | .closing | .setsid | .chdir | .openNull | .dup .. | .abandon .. => true
  | _ => false

/-- How far `detach` has got. -/
def Child.Stage (child : Process) : Child → Prop
  | .chdir => child.leader = true
  | .openNull => child.leader = true ∧ child.atRoot = true
  | .dup _ targets => child.leader = true ∧ child.atRoot = true ∧
      targets <:+ [0, 1, STDERR_FILENO] ∧
      ∀ n ≤ STDERR_FILENO, n ∉ targets → child.fds n = some .null
  | _ => True

/-- The descriptors of the first process, until it has ended. -/
structure ParentFds (r w : Nat) (q : Process) (parentAt : Parent) : Prop where
  read : parentAt = .closing ∨ (∃ m, parentAt = .waiting m) → q.fds r = some .pipeRead
  write : ∀ fd, q.fds fd = some .pipeWrite → fd = w ∧ parentAt = .closing

/-- The descriptors of the child, of a process that had those of `p` before. -/
structure ChildFds (p : Process) (r w : Nat) (child : Process) (childAt : Child)
    (verdict : Option (Except Nat Unit)) : Prop where
  low : STDERR_FILENO < r ∧ STDERR_FILENO < w
  free : p.fds r = none
  talks : childAt.talking = true → child.fds w = some .pipeWrite
  only : ∀ fd, child.fds fd = some .pipeWrite → fd = w ∧ childAt.talking = true
  null : ∀ null, childAt.null = some null →
    STDERR_FILENO < null ∧ null ≠ w ∧ p.fds null = none ∧ child.fds null = some .null
  streams : childAt ≠ .killed → ∀ n ≤ STDERR_FILENO, child.fds n ≠ none
  others : childAt ≠ .killed → ∀ fd, STDERR_FILENO < fd → fd ≠ w → childAt.null ≠ some fd →
    (childAt = .closing → fd ≠ r) → child.fds fd = p.fds fd
  stage : childAt.Stage child
  early : childAt.early = true → verdict = none
  done : verdict = some (.ok ()) → childAt ≠ .killed → Detached p w child

/-- What the child has said so far. -/
structure Said (strerror : Nat → Bytes) (s : Pair) : Prop where
  quiet : s.verdict = none → s.sent = []
  part : ∀ v, s.verdict = some v → s.sent <+: verdictText strerror v
  sending : ∀ rest v, s.childAt = .sending rest v →
    s.verdict = some v ∧ s.sent ++ rest = verdictText strerror v
  closed : ∀ v, s.childAt = .closingPipe v ∨ s.childAt = .returned v →
    s.verdict = some v ∧ (s.broken = false → s.sent = verdictText strerror v)

/-- What the first process has heard, and what it made of it. -/
structure Heard (lossy : Bytes → Bytes) (s : Pair) : Prop where
  closing : s.parentAt = .closing → s.sent = s.pipe
  waiting : ∀ m, s.parentAt = .waiting m → s.sent = m ++ s.pipe ∧ m.head? ≠ some READY
  zero : ∀ printed, s.parentAt = .exited 0 printed →
    printed = none ∧ s.verdict = some (.ok ()) ∧ s.sent = [READY]
  other : ∀ code printed, s.parentAt = .exited code printed → code ≠ 0 →
    code = 1 ∧ ∃ m, printed = some (lastWords lossy m) ∧ m <+: s.sent ∧ m.head? ≠ some READY ∧
      (s.broken = false → m = s.sent ∧ s.childAt.talking = false)

structure PairOk (strerror : Nat → Bytes) (lossy : Bytes → Bytes) (p : Process) (s : Pair) :
    Prop where
  parentFds : ParentFds s.readFd s.writeFd s.parent s.parentAt
  childFds : ChildFds p s.readFd s.writeFd s.child s.childAt s.verdict
  said : Said strerror s
  heard : Heard lossy s

end ZipFs.Cli
