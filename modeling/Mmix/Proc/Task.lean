import Mmix.Fs.Pipe
import Mmix.Proc.Elf

/-!
# Tasks

The types of `sched.h`. A C `int` is an integer; process identifiers are taken
from a counter that does not overflow. The saved kernel context of a task,
its kernel stack, is represented by the point of the kernel code at which the
task goes on when it is next given the CPU.
-/

namespace Mmix.Proc

open Mm

/-- A slot of the task table; `MAX_TASKS` is 64. -/
abbrev Slot := Fin 64

instance slotsNeZero : NeZero 64 := ⟨by decide⟩

/-- A file descriptor in range; `MAX_FDS` is 16. -/
abbrev Fd := Fin 16

/-- A signal number; `NSIG` is 32. -/
abbrev Sig := Fin 32

/-- `KSTACK_PAGES`. -/
def kstackPages : Nat := 32

/-- `SIGINT`. -/
def sigInt : Sig := 2

/-- `SIGSEGV`. -/
def sigSegv : Sig := 11

/-- `SIGPIPE`. -/
def sigPipe : Sig := 13

/-- `SIGTERM`. -/
def sigTerm : Sig := 15

/-- `SIGKILL`. -/
def sigKill : Sig := 17

/-- `SIG_DFL`. -/
def sigDfl : Word := 0

/-- `SIG_IGN`. -/
def sigIgn : Word := 1

/-- `FDF_CONSOLE_IN`. -/
def fdfConsoleIn : BitVec 32 := 1

/-- `FDF_CONSOLE_OUT`. -/
def fdfConsoleOut : BitVec 32 := 2

/-- `FDF_PIPE_RD`. -/
def fdfPipeRd : BitVec 32 := 4

/-- `FDF_PIPE_WR`. -/
def fdfPipeWr : BitVec 32 := 8

/-- The cast of a system call argument to `int`. -/
def toInt (w : Word) : Int := (w.setWidth 32).toInt

/-- `task_state_t`. -/
inductive TaskState where
  | free
  | ready
  | running
  | blocked
  deriving DecidableEq, Repr

/-- The node types that descriptors distinguish; `console` is the character
device that reads the keyboard. -/
inductive NodeKind where
  | file
  | directory
  | chardev
  | console
  | procfs
  deriving DecidableEq, Repr

/-- A node of the file system, by its address. -/
structure Node where
  addr : Nat
  kind : NodeKind
  deriving DecidableEq, Repr

/-- `file_t`. Pipes are named by their addresses. -/
structure File where
  node : Option Node
  pipe : Option Nat
  flags : BitVec 32
  pos : Word
  deriving DecidableEq, Repr

namespace File

/-- A cleared descriptor. -/
def zero : File where
  node := none
  pipe := none
  flags := 0
  pos := 0

/-- The descriptor slot is in use. -/
def InUse (f : File) : Prop := ¬ (f.node = none ∧ f.pipe = none ∧ f.flags = 0)

instance (f : File) : Decidable f.InUse := inferInstanceAs (Decidable (¬ _))

/-- The descriptor carries `FDF_PIPE_RD`. -/
def isRd (f : File) : Bool := f.flags &&& fdfPipeRd != 0

/-- The descriptor carries `FDF_PIPE_WR`. -/
def isWr (f : File) : Bool := f.flags &&& fdfPipeWr != 0

/-- The amount by which the descriptor counts as a reader. -/
def rd (f : File) : Int := if f.isRd then 1 else 0

/-- The amount by which the descriptor counts as a writer. -/
def wr (f : File) : Int := if f.isWr then 1 else 0

end File

/-- The user context that `bsp_cpu` holds while a task is in the kernel. -/
structure UserCtx where
  rip : Word
  rsp : Word
  rflags : Word
  deriving DecidableEq, Repr

/-- The system calls, with their arguments and with what they obtain from
parts of the kernel that are not modelled: the node a path resolves to, the
result of device and file input and output, the bytes of a user buffer, and
the block `kmalloc` returns. Calls without effect on the state are one case. -/
inductive Call where
  | exit (status : Word)
  | write (fd : Word) (bufNull : Bool) (data : List UInt8) (result : Int)
  | read (fd : Word) (bufNull : Bool) (count : Word) (result : Int)
  | openFile (pathNull : Bool) (node : Option Node) (append : Bool) (size : Word)
  | close (fd : Word)
  | getpid
  | yield
  | brk (addr : Word)
  | fork
  | execve (pathNull : Bool) (file : Option FileData) (argv : List (List UInt8))
  | waitpid (pid : Word)
  | sigreturn (rip rsp : Word)
  | getppid
  | mmap (len : Word)
  | munmap (addr len : Word)
  | dup (fd : Word)
  | dup2 (oldfd newfd : Word)
  | pipe (block : Option Nat)
  | kill (pid sig : Word)
  | signal (sig handler : Word)
  | panic
  | rudoRequest (op : Word)
  | rudoWait
  | setuid (uid : Word)
  | getuid
  | setpgid (pid pgid : Word)
  | getpgid (pid : Word)
  | setsid
  | tcsetpgrp (pgid : Word)
  | other (result : Int)

/-- Where a task goes on. `user` is user mode and `first` the entry of a new
task; `idle` and `idleHalt` are the two halves of the idle loop; `entered` and
`dispatch` are `syscall_handler` before and after its preemption point. The pipe loops have a point at their top, one between the
last check and the parking of the caller, and one after `sched_yield`. A task
that is `dead` waits in a halt loop. -/
inductive Cont where
  | user
  | first
  | idle
  | idleHalt
  | entered (c : Call)
  | dispatch (c : Call)
  | yielded
  | read (p n : Nat)
  | readPark (p n : Nat)
  | readWoken (p n : Nat)
  | write (p : Nat) (data : List UInt8) (done : Nat)
  | writePark (p : Nat) (data : List UInt8) (done : Nat)
  | writeWoken (p : Nat) (data : List UInt8) (done : Nat)
  | waitpid (pid : Word)
  | keyboard (n count : Nat)
  | keyboardPoll (n count : Nat)
  | rudoRequest
  | rudoWait
  | dead

/-- `task_t`, with the result register of user mode. -/
structure Task where
  pid : Int
  parentPid : Int
  pgid : Int
  sid : Int
  uid : BitVec 32
  state : TaskState
  zombie : Bool
  exitStatus : Int
  uctx : UserCtx
  kstack : Option Nat
  pml4Phys : Word
  userEntry : Word
  userRsp : Word
  brkBase : Word
  brkCur : Word
  mmapTop : Word
  fds : Fd → File
  sigPending : BitVec 32
  sigHandler : Sig → Word
  waitPipe : Option Nat
  rax : Int
  cont : Cont

namespace Task

/-- A slot after `memset(t, 0, sizeof(*t))`. -/
def zero : Task where
  pid := 0
  parentPid := 0
  pgid := 0
  sid := 0
  uid := 0
  state := .free
  zombie := false
  exitStatus := 0
  uctx := ⟨0, 0, 0⟩
  kstack := none
  pml4Phys := 0
  userEntry := 0
  userRsp := 0
  brkBase := 0
  brkCur := 0
  mmapTop := 0
  fds := fun _ => File.zero
  sigPending := 0
  sigHandler := fun _ => sigDfl
  waitPipe := none
  rax := 0
  cont := .dead

/-- `sched_wake`. -/
def wake (t : Task) : Task :=
  if t.state = .blocked ∧ t.zombie = false then { t with state := .ready } else t

/-- The body of the loop of `pipe_wake` for one slot. -/
def wakeOn (p : Nat) (t : Task) : Task :=
  if t.state = .blocked ∧ t.waitPipe = some p then wake { t with waitPipe := none } else t

/-- Set one bit of the pending set. -/
def addSig (t : Task) (sig : Sig) : Task :=
  { t with sigPending := t.sigPending ||| ((1 : BitVec 32) <<< sig.val) }

/-- The body of the loop of `raise_sigint` for one slot. -/
def raiseSigint (fgPgid : Int) (t : Task) : Task :=
  if t.state = .free ∨ t.pid < 1 then t
  else if t.pgid ≠ fgPgid then t
  else
    let t := t.addSig sigInt
    if t.state = .blocked ∧ t.waitPipe ≠ none then wake { t with waitPipe := none } else t

/-- Replace one descriptor. -/
def setFd (t : Task) (fd : Fd) (f : File) : Task :=
  { t with fds := Function.update t.fds fd f }

end Task

/-- A descriptor argument in range. -/
def fdIndex (fd : Int) : Option Fd :=
  if h : 0 ≤ fd ∧ fd < 16 then some ⟨fd.toNat, by omega⟩ else none

/-- `fd_get`: the descriptor, if it is in range and in use. -/
def fdGet (t : Task) (fd : Int) : Option Fd :=
  match fdIndex fd with
  | none => none
  | some fd => if (t.fds fd).InUse then some fd else none

/-- `fd_alloc`. -/
def fdAlloc (t : Task) : Option Fd := (List.finRange 16).find? fun fd => ¬ (t.fds fd).InUse

end Mmix.Proc
