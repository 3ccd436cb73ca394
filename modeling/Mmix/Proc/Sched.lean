import Mmix.Proc.Task

/-!
# Scheduler

The state of the kernel and the functions of `sched.c`, with the wake-ups of
`pipe.c` and `kbd.c` that work on the task table. A loop over all slots whose
rounds touch one slot each is written as a function of the slot.
-/

namespace Mmix.Proc

open Mm Fs

/-- `rudo_queue`. -/
structure RudoQueue where
  op : Int
  requester : Int
  pending : Bool
  result : Int
  deriving DecidableEq, Repr

/-- The state of the kernel: memory, task table, pipes by address, and the
global variables. `intr` is the interrupt flag of the CPU. -/
structure Kernel where
  vm : Vm
  tasks : Slot → Task
  current : Slot
  nextPid : Int
  initPid : Int
  pipes : Nat → Option Pipe
  cpu : UserCtx
  intr : Bool
  resched : Bool
  fgPgid : Int
  kbBuf : List UInt8
  rudo : RudoQueue
  rudoFault : Int

namespace Kernel

/-- `sched_get_current`. -/
def cur (k : Kernel) : Task := k.tasks k.current

def setTask (k : Kernel) (i : Slot) (t : Task) : Kernel :=
  { k with tasks := Function.update k.tasks i t }

def modTask (k : Kernel) (i : Slot) (f : Task → Task) : Kernel := k.setTask i (f (k.tasks i))

def modCur (k : Kernel) (f : Task → Task) : Kernel := k.modTask k.current f

/-- Set the point at which the current task goes on. -/
def goto (k : Kernel) (c : Cont) : Kernel := k.modCur fun t => { t with cont := c }

/-- Return to user mode with a result; `sysret` restores the interrupt flag. -/
def finish (k : Kernel) (result : Int) : Kernel :=
  { k.modCur fun t => { t with cont := .user, rax := result } with intr := true }

def setPipe (k : Kernel) (p : Nat) (q : Option Pipe) : Kernel :=
  { k with pipes := Function.update k.pipes p q }

def setVm (k : Kernel) (vm : Vm) : Kernel := { k with vm := vm }

end Kernel

open Kernel

/-- `sched_wake`. -/
def schedWake (k : Kernel) (i : Slot) : Kernel := k.modTask i Task.wake

/-- `sched_find_pid`. -/
def schedFindPid (k : Kernel) (pid : Int) : Option Slot :=
  (List.finRange 64).find? fun i => (k.tasks i).state ≠ .free ∧ (k.tasks i).pid = pid

/-- `alloc_slot`. -/
def allocSlot (k : Kernel) : Option Slot :=
  (List.finRange 64).find? fun i => (k.tasks i).state = .free

/-- `pipe_wake`. -/
def pipeWake (k : Kernel) (p : Nat) : Kernel :=
  { k with tasks := fun i => (k.tasks i).wakeOn p }

/-- `raise_sigint`. -/
def raiseSigint (k : Kernel) : Kernel :=
  { k with kbBuf := [], tasks := fun i => (k.tasks i).raiseSigint k.fgPgid }

/-- `pipe_unref`: the last reference frees the pipe. -/
def pipeUnref (k : Kernel) (p : Nat) (rd wr : Int) : Kernel :=
  match k.pipes p with
  | none => k
  | some q =>
    let q := pipeDrop q rd wr
    let k := pipeWake (k.setPipe p (some q)) p
    if q.readers ≤ 0 ∧ q.writers ≤ 0 then k.setPipe p none else k

/-- `pipe_ref` on a pipe given by its address. -/
def pipeAddRef (k : Kernel) (p : Nat) (rd wr : Int) : Kernel :=
  match k.pipes p with
  | none => k
  | some q => k.setPipe p (some (pipeRef q rd wr))

/-- A task the scheduler may pick. -/
def Task.Runnable (t : Task) : Prop := t.state = .ready ∨ t.state = .running

instance (t : Task) : Decidable t.Runnable := inferInstanceAs (Decidable (_ ∨ _))

/-- The slot that lies the given number of places after another one. -/
def slotAfter (start : Slot) (i : Nat) : Slot := ⟨(start.val + i) % 64, Nat.mod_lt _ (by decide)⟩

/-- The round-robin search of `sched_yield`. -/
def pickNext (k : Kernel) : Slot :=
  match (List.range' 1 64).find? fun i => (k.tasks (slotAfter k.current i)).Runnable with
  | none => k.current
  | some i => slotAfter k.current i

/-- `switch_to`: the user context changes hands and CR3 is loaded. -/
def switchTo (k : Kernel) (next : Slot) : Kernel :=
  let pml4 := (k.tasks next).pml4Phys
  let vm := { k.vm with cr3 := if pml4 = 0 then k.vm.kernelPml4 else pml4 }
  let k := k.modCur fun t => { t with uctx := k.cpu }
  { k with vm := vm, cpu := (k.tasks next).uctx, current := next }

/-- `sched_yield`. -/
def schedYield (k : Kernel) : Kernel :=
  let next := pickNext k
  if next = k.current then k
  else
    let k := k.modCur fun t =>
      if t.state = .running then { t with state := if t.zombie then .blocked else .ready } else t
    let k := k.modTask next fun t => { t with state := .running }
    switchTo k next

/-- The default streams of a new task. -/
def consoleFds (fd : Fd) : File :=
  if fd.val = 0 then { File.zero with flags := fdfConsoleIn }
  else if fd.val < 3 then { File.zero with flags := fdfConsoleOut }
  else File.zero

/-- `sched_spawn_user_task`: the process identifier, or none. A failed
allocation of the kernel stack leaves a free slot. -/
def schedSpawnUserTask (k : Kernel) (pml4Phys entry userRsp : Word) (parentPid : Int) :
    Option Int × Kernel :=
  match allocSlot k with
  | none => (none, k)
  | some i =>
    let pid := k.nextPid
    let t := { Task.zero with
      pid := pid
      parentPid := parentPid
      pgid := parentPid
      sid := parentPid
      uid := 1000
      state := .ready
      pml4Phys := pml4Phys
      userEntry := entry
      userRsp := userRsp
      uctx := ⟨0, 0, 0x202⟩
      cont := .first }
    let k := { k with nextPid := pid + 1 }
    match pmmAlloc kstackPages k.vm.pmm with
    | (none, pmm) =>
      (none, (k.setVm { k.vm with pmm := pmm }).setTask i { t with state := .free })
    | (some kstack, pmm) =>
      let t := { t with kstack := some kstack, fds := consoleFds, mmapTop := 0x50000000 }
      let k := (k.setVm { k.vm with pmm := pmm }).setTask i t
      (some pid, { k with initPid := if k.initPid < 0 then pid else k.initPid })

end Mmix.Proc
