import Mmix.Proc.Sched

/-!
# System calls

The functions of `syscall.c`. A function that may give up the CPU ends at the
yield and says where the caller goes on. Copies from and to user buffers only
touch user memory and are left to the steps of user programs.
-/

namespace Mmix.Sys

open Mm Fs Proc Kernel

/-- `fd_put`, which is also the body of the loop of `fds_release`. -/
def fdPut (k : Kernel) (i : Slot) (fd : Fd) : Kernel :=
  let f := (k.tasks i).fds fd
  let k := match f.pipe with
    | none => k
    | some p => pipeUnref k p f.rd f.wr
  k.modTask i fun t => t.setFd fd File.zero

/-- `fds_release`. -/
def fdsRelease (k : Kernel) (i : Slot) : Kernel :=
  (List.finRange 16).foldl (fun k fd => fdPut k i fd) k

/-- The memory part of `reap_task`. -/
def reapMemory (vm : Vm) (t : Task) : Vm :=
  let vm := match t.kstack with
    | none => vm
    | some kstack => { vm with pmm := pmmFree kstack kstackPages vm.pmm }
  if t.pml4Phys ≠ 0 ∧ t.pml4Phys ≠ vm.kernelPml4 then pmapDestroy vm t.pml4Phys else vm

/-- `reap_task`. -/
def reapTask (k : Kernel) (i : Slot) : Kernel :=
  (fdsRelease (k.setVm (reapMemory k.vm (k.tasks i))) i).setTask i Task.zero

/-- Wake the parent of a task, if it exists. -/
def wakeParent (k : Kernel) (i : Slot) : Kernel :=
  match schedFindPid k (k.tasks i).parentPid with
  | none => k
  | some j => schedWake k j

/-- Record the end of a task and wake its parent. -/
def markZombie (k : Kernel) (i : Slot) (status : Int) : Kernel :=
  wakeParent (k.modTask i fun t => { t with exitStatus := status, zombie := true }) i

/-- `terminate_current`. -/
def terminateCurrent (k : Kernel) (sig : Sig) : Kernel :=
  let i := k.current
  schedYield ((fdsRelease (markZombie k i (-(sig.val : Int))) i).goto .dead)

/-- `__builtin_ctz` of the pending set. -/
def lowestSig (pending : BitVec 32) : Option Sig :=
  (List.finRange 32).find? fun i => pending.getLsbD i.val

/-- The signals whose default action ends the task. -/
def fatalSig (sig : Sig) : Bool :=
  sig == sigKill || sig == sigTerm || sig == sigInt || sig == sigSegv || sig == sigPipe

/-- Clear one bit of the pending set. -/
def clearSig (t : Task) (sig : Sig) : Task :=
  { t with sigPending := t.sigPending &&& ~~~((1 : BitVec 32) <<< sig.val) }

/-- The loop of `deliver_signals`, one round per signal at most. It returns
false when the current task was terminated. -/
def deliverLoop : Nat → Kernel → Bool × Kernel
  | 0, k => (true, k)
  | fuel + 1, k =>
    match lowestSig k.cur.sigPending with
    | none => (true, k)
    | some sig =>
      let handler := k.cur.sigHandler sig
      if handler = sigIgn then deliverLoop fuel (k.modCur fun t => clearSig t sig)
      else if handler = sigDfl then
        if fatalSig sig then (false, terminateCurrent k sig)
        else deliverLoop fuel (k.modCur fun t => clearSig t sig)
      else
        -- The signal frame goes onto the user stack, below the red zone.
        let frame := (k.cpu.rsp - 64) &&& ~~~0xF
        let k := k.modCur fun t => clearSig t sig
        (true, { k with cpu := { k.cpu with rip := handler, rsp := frame + 16 } })

/-- `deliver_signals`. -/
def deliverSignals (k : Kernel) : Bool × Kernel := deliverLoop 33 k

/-- `sys_exit`. -/
def sysExit (k : Kernel) (status : Word) : Kernel :=
  schedYield ((markZombie k k.current (toInt status)).goto .dead)

/-- `pipe_ref` for the pipe a descriptor refers to. -/
def fdRef (k : Kernel) (f : File) : Kernel :=
  match f.pipe with
  | none => k
  | some p => pipeAddRef k p f.rd f.wr

/-- Count the descriptors of a table once more. -/
def addFdRefs (k : Kernel) (fds : Fd → File) : Kernel :=
  (List.finRange 16).foldl (fun k fd => fdRef k (fds fd)) k

/-- The part of `sys_fork` after the child was spawned. -/
def forkInherit (k : Kernel) (child : Slot) : Kernel :=
  let parent := k.cur
  let k := k.modTask child fun t => { t with
    fds := parent.fds
    brkBase := parent.brkBase
    brkCur := parent.brkCur
    mmapTop := parent.mmapTop }
  addFdRefs k parent.fds

/-- `sys_fork`. -/
def sysFork (k : Kernel) : Kernel :=
  if k.cur.userEntry = 0 then k.finish (-1)
  else
    match pmapFork k.vm k.cur.pml4Phys with
    | (childPml4, vm) =>
      if childPml4 = 0 then (k.setVm vm).finish (-1)
      else
        let k := k.setVm { vm with cr3 := k.cur.pml4Phys }
        match schedSpawnUserTask k childPml4 k.cpu.rip k.cpu.rsp k.cur.pid with
        | (none, k) => (k.setVm (pmapDestroy k.vm childPml4)).finish (-1)
        | (some pid, k) =>
          match schedFindPid k pid with
          | none => k.finish pid
          | some child => (forkInherit k child).finish pid

/-- `sys_execve`. A success enters the new image. -/
def sysExecve (k : Kernel) (pathNull : Bool) (file : Option FileData)
    (argv : List (List UInt8)) : Kernel :=
  if pathNull then k.finish (-1)
  else
    let argv := (argv.take execMaxArgs).map fun arg => arg.take (execMaxArgLen - 1)
    match execBuildImage file argv k.vm with
    | (none, vm) => (k.setVm vm).finish (-1)
    | (some img, vm) =>
      let old := k.cur.pml4Phys
      let vm := pmapDestroy { vm with cr3 := img.pml4Phys } old
      let k := (k.setVm vm).modCur fun t => { t with
        pml4Phys := img.pml4Phys
        brkBase := img.brkBase + 0x1000
        brkCur := img.brkBase + 0x1000
        mmapTop := 0x50000000
        cont := .user }
      { k with cpu := ⟨img.entry, img.userRsp, 0x202⟩, intr := true }

/-- A child of the current task in the sense of `sys_waitpid`. -/
def IsChild (k : Kernel) (i : Slot) : Prop :=
  (k.tasks i).state ≠ .free ∧ (k.tasks i).parentPid = k.cur.pid ∧ (k.tasks i).pid ≠ 0

instance (k : Kernel) (i : Slot) : Decidable (IsChild k i) :=
  inferInstanceAs (Decidable (_ ∧ _))

/-- The child is one that `sys_waitpid` waits for. -/
def Wanted (pid : Word) (t : Task) : Prop := pid.toInt = -1 ∨ toInt pid = t.pid

instance (pid : Word) (t : Task) : Decidable (Wanted pid t) :=
  inferInstanceAs (Decidable (_ ∨ _))

/-- One round of the outer loop of `sys_waitpid`. -/
def waitpidRound (k : Kernel) (pid : Word) : Kernel :=
  match (List.finRange 64).find? fun i =>
      IsChild k i ∧ Wanted pid (k.tasks i) ∧ (k.tasks i).zombie with
  | some i =>
    let reaped := (k.tasks i).pid
    (reapTask k i).finish reaped
  | none =>
    if ∃ i, IsChild k i then
      schedYield (k.modCur fun t => { t with state := .blocked, cont := .waitpid pid })
    else k.finish (-1)

/-- The advance of a descriptor after input or output through the VFS. -/
def vfsDone (k : Kernel) (fd : Fd) (result : Int) : Kernel :=
  if 0 < result then
    (k.modCur fun t => t.setFd fd { t.fds fd with
      pos := (t.fds fd).pos + BitVec.ofInt 64 result }).finish result
  else k.finish result

/-- `sys_open`, given the node found or created for the path. -/
def sysOpen (k : Kernel) (pathNull : Bool) (node : Option Node) (append : Bool) (size : Word) :
    Kernel :=
  match pathNull, node with
  | true, _ => k.finish (-1)
  | false, none => k.finish (-1)
  | false, some node =>
    if node.kind = .directory then k.finish (-1)
    else
      match fdAlloc k.cur with
      | none => k.finish (-1)
      | some fd =>
        (k.modCur fun t => t.setFd fd { File.zero with
          node := some node
          pos := if append then size else 0 }).finish fd.val

/-- `sys_close`. -/
def sysClose (k : Kernel) (fd : Word) : Kernel :=
  match fdGet k.cur (toInt fd) with
  | none => k.finish (-1)
  | some fd => (fdPut k k.current fd).finish 0

/-- `sys_read`. The loops over a pipe and over the keyboard go on at their own
points; a pipe end without a pipe would be a fault in the kernel. -/
def sysRead (k : Kernel) (fd : Word) (bufNull : Bool) (count : Word) (result : Int) : Kernel :=
  match fdGet k.cur (toInt fd) with
  | none => k.finish (-1)
  | some fd =>
    let f := k.cur.fds fd
    if bufNull ∨ count = 0 then k.finish (-1)
    else
      match f.node.map Node.kind with
      | some .console => k.goto (.keyboard 0 count.toNat)
      | some .chardev => k.finish result
      | some .procfs => vfsDone k fd result
      | _ =>
        if f.isRd then
          match f.pipe with
          | none => k.goto .dead
          | some p => k.goto (.read p count.toNat)
        else if f.flags &&& fdfConsoleIn ≠ 0 then k.goto (.keyboard 0 count.toNat)
        else if f.node = none then k.finish (-1)
        else vfsDone k fd result

/-- `sys_write`; the data are the bytes of the user buffer. -/
def sysWrite (k : Kernel) (fd : Word) (bufNull : Bool) (data : List UInt8) (result : Int) :
    Kernel :=
  match fdGet k.cur (toInt fd) with
  | none => k.finish (-1)
  | some fd =>
    let f := k.cur.fds fd
    if bufNull ∨ data = [] then k.finish (-1)
    else
      match f.node.map Node.kind with
      | some .console => k.finish result
      | some .chardev => k.finish result
      | _ =>
        if f.isWr then
          match f.pipe with
          | none => k.goto .dead
          | some p => k.goto (.write p data 0)
        else if f.flags &&& fdfConsoleOut ≠ 0 then k.finish data.length
        else if f.node = none then k.finish (-1)
        else vfsDone k fd result

/-- `sys_pipe`, given the block from `kmalloc`, which is not in use. -/
def sysPipe (k : Kernel) (block : Option Nat) : Option Kernel :=
  match block with
  | none => some (k.finish (-1))
  | some p =>
    if (k.pipes p).isSome then none
    else
      let k := k.setPipe p (some pipeCreate)
      match fdAlloc k.cur with
      | none => some ((pipeUnref k p 1 1).finish (-1))
      | some rd =>
        -- The slot is busy before the second one is looked for.
        let k := k.modCur fun t => t.setFd rd { File.zero with pipe := some p }
        match fdAlloc k.cur with
        | none =>
          let k := k.modCur fun t => t.setFd rd File.zero
          some ((pipeUnref k p 1 1).finish (-1))
        | some wr =>
          let k := k.modCur fun t => t.setFd rd { t.fds rd with flags := fdfPipeRd }
          let k := k.modCur fun t =>
            t.setFd wr { File.zero with pipe := some p, flags := fdfPipeWr }
          some (k.finish 0)

/-- `do_dup2`. -/
def doDup2 (k : Kernel) (oldfd newfd : Int) : Kernel :=
  match fdGet k.cur oldfd, fdIndex newfd with
  | none, _ => k.finish (-1)
  | some _, none => k.finish (-1)
  | some old, some new =>
    if old = new then k.finish new.val
    else
      let k := if (k.cur.fds new).InUse then fdPut k k.current new else k
      let f := k.cur.fds old
      (fdRef (k.modCur fun t => t.setFd new f) f).finish new.val

/-- `sys_dup`. -/
def sysDup (k : Kernel) (fd : Word) : Kernel :=
  match fdGet k.cur (toInt fd), fdAlloc k.cur with
  | none, _ => k.finish (-1)
  | some _, none => k.finish (-1)
  | some _, some new => doDup2 k (toInt fd) new.val

/-- `sys_dup2`. -/
def sysDup2 (k : Kernel) (oldfd newfd : Word) : Kernel := doDup2 k (toInt oldfd) (toInt newfd)

/-- A signal number that `sys_kill` and `sys_signal` accept. -/
def sigIndex (sig : Word) : Option Sig :=
  if h : sig ≠ 0 ∧ sig < 32 then some ⟨sig.toNat, h.2⟩ else none

/-- What `sys_kill` does to another task that is parked or ready on `SIGKILL`. -/
def killParked (k : Kernel) (i : Slot) : Kernel :=
  let k := markZombie k i (-(sigKill.val : Int))
  match (k.tasks i).waitPipe with
  | some p => pipeWake (k.modTask i fun t => { t with waitPipe := none }) p
  | none => schedWake k i

/-- `sys_kill`. -/
def sysKill (k : Kernel) (pid sig : Word) : Kernel :=
  match sigIndex sig, schedFindPid k (toInt pid) with
  | none, _ => k.finish (-1)
  | some _, none => k.finish (-1)
  | some sig, some i =>
    if (k.tasks i).pid = 0 then k.finish (-1)
    else
      let k := k.modTask i fun t => t.addSig sig
      if i = k.current then
        match deliverSignals k with
        | (true, k) => k.finish 0
        | (false, k) => k
      else if sig = sigKill ∧ ((k.tasks i).state = .blocked ∨ (k.tasks i).state = .ready) then
        (killParked k i).finish 0
      else
        match (k.tasks i).waitPipe with
        | none => k.finish 0
        | some p => (pipeWake k p).finish 0

/-- `sys_signal`. -/
def sysSignal (k : Kernel) (sig handler : Word) : Kernel :=
  match sigIndex sig with
  | none => k.finish (-1)
  | some sig =>
    if sig = sigKill then k.finish (-1)
    else
      (k.modCur fun t => { t with
        sigHandler := Function.update t.sigHandler sig handler }).finish
          (k.cur.sigHandler sig).toInt

/-- `sys_sigreturn`, given the two words of the signal frame. -/
def sysSigreturn (k : Kernel) (rip rsp : Word) : Kernel :=
  { k with cpu := { k.cpu with rip := rip, rsp := rsp } }.finish 0

/-- The task a process-group call names; zero is the caller. -/
def groupTarget (k : Kernel) (pid : Word) : Option Slot :=
  if pid = 0 then some k.current else schedFindPid k (toInt pid)

/-- `sys_setpgid`. -/
def sysSetpgid (k : Kernel) (pid pgid : Word) : Kernel :=
  match groupTarget k pid with
  | none => k.finish (-1)
  | some i =>
    let t := k.tasks i
    let newpgid := if pgid = 0 then t.pid else toInt pgid
    if t.sid ≠ k.cur.sid ∨ t.zombie ∨ newpgid ≠ t.pid then k.finish (-1)
    else (k.modTask i fun t => { t with pgid := newpgid }).finish 0

/-- `sys_getpgid`. -/
def sysGetpgid (k : Kernel) (pid : Word) : Kernel :=
  match groupTarget k pid with
  | none => k.finish (-1)
  | some i => k.finish (k.tasks i).pgid

/-- `sys_setsid`. -/
def sysSetsid (k : Kernel) : Kernel :=
  if ∃ i, (k.tasks i).state ≠ .free ∧ (k.tasks i).sid = k.cur.pid ∧
      (k.tasks i).pid ≠ k.cur.pid then k.finish (-1)
  else (k.modCur fun t => { t with sid := t.pid, pgid := t.pid }).finish k.cur.pid

/-- `sys_tcsetpgrp`. -/
def sysTcsetpgrp (k : Kernel) (pgid : Word) : Kernel :=
  if toInt pgid ≠ k.cur.pgid ∧ schedFindPid k (toInt pgid) = none then k.finish (-1)
  else { k with fgPgid := pgid.toInt }.finish 0

/-- `RUDO_OP_PANIC`. -/
def rudoOpPanic : Int := 1

/-- `RUDO_OP_SETUID`. -/
def rudoOpSetuid : Int := 2

/-- `sys_rudo_request` up to the point where the caller waits. -/
def sysRudoRequest (k : Kernel) (op : Word) : Kernel :=
  match schedFindPid k 2 with
  | none => k.finish (-1)
  | some daemon =>
    if (k.tasks daemon).uid ≠ 0 ∨ (k.tasks daemon).zombie ∨ k.rudo.pending then k.finish (-1)
    else
      let k := schedWake { k with rudo := ⟨toInt op, k.cur.pid, true, -1⟩ } daemon
      schedYield (k.modCur fun t => { t with state := .blocked, cont := .rudoRequest })

/-- Set the effective user of the requester to root. -/
def rudoSetuid (k : Kernel) : Kernel :=
  let k := match schedFindPid k k.rudo.requester with
    | none => k
    | some i => k.modTask i fun t => { t with uid := 0 }
  { k with rudo := { k.rudo with result := 0 } }

/-- Wake the task that waits for the answer. -/
def rudoAnswer (k : Kernel) : Kernel :=
  match schedFindPid k k.rudo.requester with
  | none => k
  | some i => schedWake k i

/-- One round of the loop of `sys_rudo_wait`. The approved panic stores to
address 16 and ends the run unless the page is mapped. -/
def rudoWaitRound (k : Kernel) : Option Kernel :=
  if k.rudo.pending then
    let op := k.rudo.op
    let k := { k with rudo := { k.rudo with pending := false } }
    if op = rudoOpPanic then
      let pa := pmapResolve k.vm k.cur.pml4Phys 0x10
      if pa = 0 then none
      else
        let k := { k with rudoFault := k.rudo.requester }
        some ((k.setVm (writeBytes [0xEF, 0xBE, 0xAD, 0xDE] pa k.vm)).finish op)
    else
      some ((rudoAnswer (if op = rudoOpSetuid then rudoSetuid k else k)).finish op)
  else some (schedYield (k.modCur fun t => { t with state := .blocked, cont := .rudoWait }))

/-- Round up to whole pages. -/
def pageUp (w : Word) : Word := (w + 0xFFF) &&& ~~~0xFFF

/-- The number of rounds of a loop over the pages from one address up to
another one. -/
def pageCount (va stop : Word) : Nat :=
  if va < stop then ((stop - va).toNat + (pageSize - 1)) / pageSize else 0

/-- `MMAP_AREA_BASE`. -/
def mmapAreaBase : Word := 0x50000000

/-- `MMAP_AREA_END`. -/
def mmapAreaEnd : Word := 0x6FFFF000

/-- `BRK_LIMIT`. -/
def brkLimit : Word := 0x40000000

/-- `sys_mmap`. -/
def sysMmap (k : Kernel) (len : Word) : Kernel :=
  if len = 0 then k.finish (-1)
  else
    let len := pageUp len
    let k := k.modCur fun t => { t with
      mmapTop := if t.mmapTop = 0 then mmapAreaBase else t.mmapTop }
    let base := k.cur.mmapTop
    if mmapAreaEnd < base + len then k.finish (-1)
    else
      match mapFresh k.cur.pml4Phys (pageCount base (base + len)) base k.vm with
      | (false, vm) => (k.setVm vm).finish (-1)
      | (true, vm) =>
        ((k.setVm vm).modCur fun t => { t with mmapTop := t.mmapTop + len }).finish base.toInt

/-- The loop of `sys_munmap`. -/
def munmapLoop (pml4 : Word) : Nat → Word → Vm → Vm
  | 0, _, s => s
  | pages + 1, va, s =>
    let pa := pmapResolve s pml4 va
    let s := if pa = 0 then s else pmapUnmap (destroyLeaf s pa) pml4 va
    munmapLoop pml4 pages (va + 0x1000) s

/-- `sys_munmap`. -/
def sysMunmap (k : Kernel) (addr len : Word) : Kernel :=
  if len = 0 ∨ addr &&& 0xFFF ≠ 0 then k.finish (-1)
  else
    let pages := pageCount addr (addr + pageUp len)
    (k.setVm (munmapLoop k.cur.pml4Phys pages addr k.vm)).finish 0

/-- The loop of `sys_brk` that gives pages back; it leaves their entries. -/
def brkShrink (pml4 : Word) : Nat → Word → Vm → Vm
  | 0, _, s => s
  | pages + 1, va, s =>
    let pa := pmapResolve s pml4 va
    brkShrink pml4 pages (va + 0x1000) (if pa = 0 then s else destroyLeaf s pa)

/-- `sys_brk`. -/
def sysBrk (k : Kernel) (addr : Word) : Kernel :=
  if addr = 0 ∨ addr < k.cur.brkBase ∨ brkLimit ≤ addr then k.finish k.cur.brkCur.toInt
  else
    let oldTop := pageUp k.cur.brkCur
    let newTop := pageUp addr
    let vm :=
      if oldTop < newTop then
        (mapFresh k.cur.pml4Phys (pageCount oldTop newTop) oldTop k.vm).2
      else brkShrink k.cur.pml4Phys (pageCount newTop oldTop) newTop k.vm
    ((k.setVm vm).modCur fun t => { t with brkCur := addr }).finish addr.toInt

end Mmix.Sys
