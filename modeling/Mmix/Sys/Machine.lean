import Mmix.Sys.Syscall

/-!
# The kernel as a transition system

One CPU runs user programs, the kernel code of the task that holds the CPU,
and interrupt handlers. Kernel code advances from one point of `Cont` to the
next; interrupts are taken between these points while the interrupt flag is
set. System calls enter with interrupts disabled, but a context switch does
not save the flag, so a call that is resumed by the idle task goes on with
interrupts enabled.
-/

namespace Mmix.Sys

open Mm Fs Proc Kernel

/-- The body of a system call, `syscall_table[num]`. A panic ends the run. -/
def dispatch (k : Kernel) : Call → Option Kernel
  | .exit status => some (sysExit k status)
  | .write fd bufNull data result => some (sysWrite k fd bufNull data result)
  | .read fd bufNull count result => some (sysRead k fd bufNull count result)
  | .openFile pathNull node append size => some (sysOpen k pathNull node append size)
  | .close fd => some (sysClose k fd)
  | .getpid => some (k.finish k.cur.pid)
  | .yield => some (schedYield (k.goto .yielded))
  | .brk addr => some (sysBrk k addr)
  | .fork => some (sysFork k)
  | .execve pathNull file argv => some (sysExecve k pathNull file argv)
  | .waitpid pid => some (waitpidRound k pid)
  | .sigreturn rip rsp => some (sysSigreturn k rip rsp)
  | .getppid => some (k.finish k.cur.parentPid)
  | .mmap len => some (sysMmap k len)
  | .munmap addr len => some (sysMunmap k addr len)
  | .dup fd => some (sysDup k fd)
  | .dup2 oldfd newfd => some (sysDup2 k oldfd newfd)
  | .pipe block => sysPipe k block
  | .kill pid sig => some (sysKill k pid sig)
  | .signal sig handler => some (sysSignal k sig handler)
  | .panic => if k.cur.uid ≠ 0 then some (k.finish (-1)) else none
  | .rudoRequest op => some (sysRudoRequest k op)
  | .rudoWait => if k.cur.uid ≠ 0 then some (k.finish (-1)) else rudoWaitRound k
  | .setuid uid =>
    if k.cur.uid ≠ 0 then some (k.finish (-1))
    else some ((k.modCur fun t => { t with uid := uid.setWidth 32 }).finish 0)
  | .getuid => some (k.finish k.cur.uid.toNat)
  | .setpgid pid pgid => some (sysSetpgid k pid pgid)
  | .getpgid pid => some (sysGetpgid k pid)
  | .setsid => some (sysSetsid k)
  | .tcsetpgrp pgid => some (sysTcsetpgrp k pgid)
  | .other result => some (k.finish result)

/-- Yield when the timer asked for it, and go on at the given point. -/
def preempt (k : Kernel) (c : Cont) : Kernel :=
  if k.resched then schedYield ({ k with resched := false }.goto c) else k.goto c

/-- `syscall_handler` up to the call through the table. -/
def syscallEnter (k : Kernel) (c : Call) : Kernel :=
  match if k.cur.sigPending = 0 then (true, k) else deliverSignals k with
  | (false, k) => k
  | (true, k) => preempt k (.dispatch c)

/-- One pass through the loop of `pipe_read`. -/
def readPass (k : Kernel) (p n : Nat) : Option Kernel :=
  match k.pipes p with
  | none => none
  | some q =>
    match pipeReadStep q n (k.cur.sigPending != 0) with
    | (.data bytes, q) => some ((pipeWake (k.setPipe p (some q)) p).finish bytes.length)
    | (.eof, _) => some (k.finish 0)
    | (.abort, _) => some (k.finish (-1))
    | (.park, _) => some (k.goto (.readPark p n))

/-- One pass through the loop of `pipe_write`. -/
def writePass (k : Kernel) (p : Nat) (data : List UInt8) (done : Nat) : Option Kernel :=
  match k.pipes p with
  | none => none
  | some q =>
    match pipeWriteStep q (data.drop done) (k.cur.sigPending != 0) with
    | (.finished, _) => some (k.finish (intOf done))
    | (.epipe, _) => some (k.finish (-1))
    | (.abort, _) => some (k.finish (-1))
    | (.copied count, q) =>
      some ((pipeWake (k.setPipe p (some q)) p).goto (.write p data (done + count)))
    | (.park, _) => some (k.goto (.writePark p data done))

/-- Block on a pipe and give up the CPU. -/
def park (k : Kernel) (p : Nat) (c : Cont) : Kernel :=
  schedYield (k.modCur fun t => { t with waitPipe := some p, state := .blocked, cont := c })

/-- The assignment after `sched_yield` in the pipe loops. -/
def clearWait (k : Kernel) : Kernel := k.modCur fun t => { t with waitPipe := none }

/-- The keyboard loop of `sys_read` with the head of `kbd_getchar`. -/
def keyboardTop (k : Kernel) (n count : Nat) : Kernel :=
  if count ≤ n then k.finish n
  else if k.cur.sigPending ≠ 0 then k.finish (if n = 0 then -1 else n)
  else preempt k (.keyboardPoll n count)

/-- The rest of `kbd_getchar`, and the use of the character. -/
def keyboardPoll (k : Kernel) (n count : Nat) : Kernel :=
  match k.kbBuf with
  | [] => { k.goto (.keyboard n count) with intr := true }
  | c :: rest =>
    let k := { k with kbBuf := rest }
    if c = 10 then k.finish (n + 1 : Nat) else k.goto (.keyboard (n + 1) count)

/-- The kernel code of the current task from its point to the next one. -/
def resume (k : Kernel) : Option Kernel :=
  match k.cur.cont with
  | .user => none
  | .first => some (k.finish 0)
  | .idle => some (preempt k .idleHalt)
  | .idleHalt => some { k.goto .idle with intr := true }
  | .entered c => some (syscallEnter k c)
  | .dispatch c => dispatch k c
  | .yielded => some (k.finish 0)
  | .read p n => readPass k p n
  | .readPark p n => some (park k p (.readWoken p n))
  | .readWoken p n => readPass (clearWait k) p n
  | .write p data done => writePass k p data done
  | .writePark p data done => some (park k p (.writeWoken p data done))
  | .writeWoken p data done => writePass (clearWait k) p data done
  | .waitpid pid => some (waitpidRound k pid)
  | .keyboard n count => some (keyboardTop k n count)
  | .keyboardPoll n count => some (keyboardPoll k n count)
  | .rudoRequest => some (k.finish k.rudo.result)
  | .rudoWait => rudoWaitRound k
  | .dead => none

/-- The task is in user mode. -/
def userMode (t : Task) : Bool :=
  match t.cont with
  | .user => true
  | _ => false

/-- The page-fault branch of `isr_handler`. An unhandled fault in the kernel,
and one while a requested panic is in flight, ends the run. -/
def pageFault (k : Kernel) (va errCode : Word) : Option Kernel :=
  match pmapHandleFault k.vm k.cur.pml4Phys va errCode with
  | (true, vm) => some (k.setVm vm)
  | (false, vm) =>
    let k := k.setVm vm
    if k.rudoFault ≠ 0 ∨ userMode k.cur = false then none
    else
      let k := markZombie { k with intr := false } k.current (-(sigSegv.val : Int))
      some (schedYield (k.goto .dead))

/-- A store of one byte to a mapped page of the user half, by the program or by
the kernel into a user buffer. -/
def store (k : Kernel) (va : Word) (byte : UInt8) : Option Kernel :=
  let pa := pmapResolve k.vm k.cur.pml4Phys va
  if k.cur.pml4Phys = 0 ∨ pa = 0 ∨ 2 ^ 47 ≤ va.toNat then none
  else some (k.setVm (writeByte k.vm pa byte))

/-- The events that drive the machine. -/
inductive Event where
  | syscall (c : Call) (ctx : UserCtx)
  | resume
  | store (va : Word) (byte : UInt8)
  | fault (va errCode : Word)
  | tick
  | key (c : UInt8)
  | ctrlC

/-- One step of the machine. -/
def step (k : Kernel) : Event → Option Kernel
  | .syscall c ctx =>
    if userMode k.cur then some ({ k with cpu := ctx, intr := false }.goto (.entered c))
    else none
  | .resume => resume k
  | .store va byte => store k va byte
  | .fault va errCode =>
    if (errCode &&& 4 ≠ 0) = userMode k.cur then pageFault k va errCode else none
  | .tick => if k.intr then some { k with resched := true } else none
  | .key c =>
    if k.intr then
      some (if k.kbBuf.length < 127 then { k with kbBuf := k.kbBuf ++ [c] } else k)
    else none
  | .ctrlC => if k.intr then some (raiseSigint k) else none

/-- `sched_init` on the memory of the booted machine. -/
def schedInit (vm : Vm) : Option Kernel :=
  match pmmAlloc kstackPages vm.pmm with
  | (none, _) => none
  | (some kstack, pmm) =>
    let idle := { Task.zero with kstack := some kstack, state := .ready, cont := .idle }
    some
      { vm := { vm with pmm := pmm }
        tasks := Function.update (fun _ => Task.zero) 0 idle
        current := 0
        nextPid := 1
        initPid := -1
        pipes := fun _ => none
        cpu := ⟨0, 0, 0⟩
        intr := false
        resched := false
        fgPgid := 1
        kbBuf := []
        rudo := ⟨0, 0, false, 0⟩
        rudoFault := 0 }

/-- Load and spawn one of the root programs; false when it cannot be loaded. -/
def bootSpawn (k : Kernel) (file : Option FileData) (path : List UInt8) (parentPid : Int) :
    Bool × Kernel :=
  match execBuildImage file [path] k.vm with
  | (none, vm) => (false, k.setVm vm)
  | (some img, vm) =>
    match schedSpawnUserTask (k.setVm vm) img.pml4Phys img.entry img.userRsp parentPid with
    | (none, k) => (true, k)
    | (some pid, k) =>
      match schedFindPid k pid with
      | none => (true, k)
      | some i =>
        (true, k.modTask i fun t => { t with
          uid := 0
          brkBase := img.brkBase + 0x1000
          brkCur := img.brkBase + 0x1000 })

/-- `sched_start`: the ready task in the highest slot gets the CPU. -/
def schedStart (k : Kernel) : Option Kernel :=
  match (List.finRange 64).reverse.find? fun i => i ≠ 0 ∧ (k.tasks i).state = .ready with
  | none => none
  | some first =>
    let k := k.modTask first fun t => { t with state := .running }
    let pml4 := (k.tasks first).pml4Phys
    some { k with
      vm := { k.vm with cr3 := if pml4 = 0 then k.vm.kernelPml4 else pml4 }
      cpu := (k.tasks first).uctx
      current := first }

/-- The bytes of a path. -/
def pathBytes (path : String) : List UInt8 := path.toList.map fun c => UInt8.ofNat c.toNat

/-- The end of the boot sequence, with the two programs as found on the initial
file system. -/
def boot (vm : Vm) (init rudod : Option FileData) : Option Kernel :=
  match schedInit vm with
  | none => none
  | some k =>
    match bootSpawn k init (pathBytes "/bin/init") 0 with
    | (false, _) => none
    | (true, k) => schedStart (bootSpawn k rudod (pathBytes "/bin/rudod") 1).2

end Mmix.Sys
