import Mmix.Sys.Drift

/-!
# What a step can do

Every step of the machine is a sequence of moves. A move changes the task
table and the pipes in one elementary way, so that an invariant of the machine
has to be checked once for every kind of move. The moves whose effect on an
invariant depends on the circumstances are subject to a policy; a policy
allows an event in a state if it allows the moves the event makes.
-/

namespace Mmix.Sys

open Mm Fs Proc Kernel

/-- No descriptor of the task refers to a pipe. -/
def NoPipes (t : Task) : Prop := ∀ fd, (t.fds fd).pipe = none

instance (t : Task) : Decidable (NoPipes t) := inferInstanceAs (Decidable (∀ _, _))

/-- The points of the idle loop. -/
def Idles (c : Cont) : Prop := c = .idle ∨ c = .idleHalt

/-- The points between the last check of a pipe loop and the parking. -/
def Parks : Cont → Bool
  | .readPark _ _ => true
  | .writePark _ _ _ => true
  | _ => false

/-- The points at which a task waits for the other side of `rudo`. -/
def Rudo : Cont → Bool
  | .rudoRequest => true
  | .rudoWait => true
  | _ => false

/-- The points where no other task is waited for. -/
def Plain (c : Cont) : Bool := !(Parks c || Rudo c)

theorem parks_of_plain {c : Cont} (h : Plain c = true) : Parks c = false := by
  unfold Plain at h
  cases hc : Parks c with
  | false => rfl
  | true =>
    rw [hc] at h
    cases h

theorem rudo_of_plain {c : Cont} (h : Plain c = true) : Rudo c = false := by
  unfold Plain at h
  cases hc : Rudo c with
  | false => rfl
  | true =>
    rw [hc, Bool.or_true] at h
    cases h

/-- Conditions on moves: changes of memory and address spaces, changes of users
and of the `rudo` queue, the creation and the reaping of tasks by a task, the end
of a task that keeps its descriptors, the end of a task (given by its identifier and
that of its parent) by a signal, `SIGKILL` for another task, a new pipe, an
interrupt by Ctrl+C, the slots whose tasks go on, parking on a pipe, and changes of
the user context. -/
structure Policy where
  mem : Prop
  roles : Prop
  tasks : Task → Prop
  exit : Task → Prop
  term : Int → Int → Prop
  kill : Task → Prop
  pipe : Task → Prop
  sigint : Kernel → Prop
  actor : Slot → Prop
  park : Prop
  ctx : Prop

/-- The policy that allows every move. -/
def Policy.any : Policy where
  mem := True
  roles := True
  tasks := fun _ => True
  exit := fun _ => True
  term := fun _ _ => True
  kill := fun _ => True
  pipe := fun _ => True
  sigint := fun _ => True
  actor := fun _ => True
  park := True
  ctx := True

/-- The tasks differ only in what neither the scheduler nor the pipes use. -/
structure Alike (t t' : Task) : Prop where
  pid : t'.pid = t.pid
  parentPid : t'.parentPid = t.parentPid
  state : t'.state = t.state
  zombie : t'.zombie = t.zombie
  exitStatus : t'.exitStatus = t.exitStatus
  fds : t'.fds = t.fds
  waitPipe : t'.waitPipe = t.waitPipe
  cont : t'.cont = t.cont
  kstack : t'.kstack = t.kstack
  sigPending : t.sigPending = 0 → t'.sigPending = 0
  uctx : t'.uctx = t.uctx

/-- A task as `sched_spawn_user_task` makes it. -/
structure Fresh (k : Kernel) (t : Task) : Prop where
  pid : t.pid = k.nextPid
  parentPid : t.parentPid < k.nextPid
  state : t.state = .ready ∨ t.state = .free
  zombie : t.zombie = false
  noPipes : NoPipes t
  cont : t.cont = .first
  uid : t.uid ≠ 0
  waitPipe : t.waitPipe = none

/-- How the current task blocks itself before it gives up the CPU. -/
inductive Blocks (k : Kernel) : (Task → Task) → Prop
  | read (p n : Nat) (hcont : k.cur.cont = .readPark p n) :
      Blocks k fun t => { t with waitPipe := some p, state := .blocked, cont := .readWoken p n }
  | write (p : Nat) (data : List UInt8) (done : Nat)
      (hcont : k.cur.cont = .writePark p data done) :
      Blocks k fun t =>
        { t with waitPipe := some p, state := .blocked, cont := .writeWoken p data done }
  | waitpid (pid : Word)
      (hnone : ∀ i, IsChild k i → Wanted pid (k.tasks i) → (k.tasks i).zombie = false) :
      Blocks k fun t => { t with state := .blocked, cont := .waitpid pid }
  | rudo (c : Cont) (hc : c = .rudoRequest ∨ c = .rudoWait) :
      Blocks k fun t => { t with state := .blocked, cont := c }

/-- Give a task a descriptor that refers to what another one refers to. -/
def shareFd (k : Kernel) (new : Fd) (f : File) : Kernel :=
  fdRef (k.modCur fun t => t.setFd new f) f

/-- A descriptor for an end of a pipe. -/
def pipeEnd (p : Nat) (flags : BitVec 32) : File :=
  { File.zero with pipe := some p, flags := flags }

/-- The two ends of a new pipe in the table of the current task. -/
def installPipe (k : Kernel) (p : Nat) (rd wr : Fd) : Kernel :=
  (k.setPipe p (some pipeCreate)).modCur fun t =>
    (t.setFd rd (pipeEnd p fdfPipeRd)).setFd wr (pipeEnd p fdfPipeWr)

/-- A signal for another task, with the wake-up of `sys_kill`. -/
def postSig (k : Kernel) (i : Slot) (sig : Sig) : Kernel :=
  match (k.tasks i).waitPipe with
  | none => k.modTask i fun t => t.addSig sig
  | some p => pipeWake (k.modTask i fun t => t.addSig sig) p

/-- The elementary changes after which every task goes on where it was. -/
inductive Change (P : Policy) (k : Kernel) : Kernel → Prop
  | frame (k' : Kernel) (htasks : k'.tasks = k.tasks) (hcur : k'.current = k.current)
      (hpid : k'.nextPid = k.nextPid) (hpipes : k'.pipes = k.pipes) (hvm : k'.vm = k.vm)
      (hrudo : P.roles ∨ k'.rudo = k.rudo) (hcpu : P.ctx ∨ k'.cpu = k.cpu) :
      Change P k k'
  | memory (h : P.mem) (vm : Vm) : Change P k (k.setVm vm)
  | edit (i : Slot) (t : Task) (h : Alike (k.tasks i) t)
      (hpml4 : t.pml4Phys = (k.tasks i).pml4Phys) (huid : P.roles ∨ t.uid = (k.tasks i).uid) :
      Change P k (k.setTask i t)
  | exec (h : P.mem) (t : Task) (ht : Alike k.cur t) (huid : t.uid = k.cur.uid) :
      Change P k (k.setTask k.current t)
  | file (fd : Fd) (f : File) (hpipe : f.pipe = (k.cur.fds fd).pipe)
      (hflags : f.pipe ≠ none → f.flags = (k.cur.fds fd).flags) :
      Change P k (k.modCur fun t => t.setFd fd f)
  | close (fd : Fd) (hpark : Parks k.cur.cont = false) : Change P k (fdPut k k.current fd)
  | share (old new : Fd) (hpark : Parks k.cur.cont = false)
      (hnew : (k.cur.fds new).pipe = none) :
      Change P k (shareFd k new (k.cur.fds old))
  | newPipe (p : Nat) (rd wr : Fd) (hp : k.pipes p = none) (hne : rd ≠ wr)
      (hrd : (k.cur.fds rd).pipe = none) (hwr : (k.cur.fds wr).pipe = none)
      (hP : P.pipe k.cur) (hpark : Parks k.cur.cont = false) :
      Change P k (installPipe k p rd wr)
  | wakeAll (p : Nat) : Change P k (pipeWake k p)
  | transfer (p : Nat) (q q' : Pipe) (hpark : Parks k.cur.cont = false)
      (hq : k.pipes p = some q) (hrd : q'.readers = q.readers) (hwr : q'.writers = q.writers)
      (hv : q.Valid pipeSize → q'.Valid pipeSize) :
      Change P k (pipeWake (k.setPipe p (some q')) p)
  | wake (i : Slot) (hP : P.roles) : Change P k (schedWake k i)
  | inherit (i : Slot) (hi : i ≠ k.current) (hready : (k.tasks i).state ≠ .free)
      (hz : (k.tasks i).zombie = false) (hfds : NoPipes (k.tasks i))
      (hpark : Parks k.cur.cont = false) :
      Change P k (forkInherit k i)
  | signal (i : Slot) (sig : Sig) (hi : i ≠ k.current) : Change P k (postSig k i sig)
  | signalSelf (sig : Sig) (hrun : k.cur.state = .running) (hpark : Parks k.cur.cont = false) :
      Change P k (k.modCur fun t => t.addSig sig)
  | clearWait (hrun : k.cur.state = .running) : Change P k (clearWait k)
  | sigint (hP : P.sigint k) : Change P k (raiseSigint k)

/-- The elementary changes of where a task is, of the task that holds the CPU,
and of the set of live tasks. -/
inductive Turn (P : Policy) (k : Kernel) : Kernel → Prop
  | goto (c : Cont) (r : Int) (b : Bool) (hidle : k.current = 0 → Idles c)
      (hpark : Parks c = false) (hrudo : Rudo c = false) (hactor : P.actor k.current) :
      Turn P k { k.modCur fun t => { t with cont := c, rax := r } with intr := b }
  | readPark (p n : Nat) (q : Pipe) (h0 : k.current ≠ 0) (hq : k.pipes p = some q)
      (hlen : q.len = 0) (hw : q.writers ≠ 0) (hsig : k.cur.sigPending = 0)
      (hactor : P.actor k.current) :
      Turn P k (k.goto (.readPark p n))
  | writePark (p : Nat) (data : List UInt8) (done : Nat) (q : Pipe) (h0 : k.current ≠ 0)
      (hq : k.pipes p = some q) (hlen : ¬ q.len < pipeSize) (hr : q.readers ≠ 0)
      (hsig : k.cur.sigPending = 0) (hactor : P.actor k.current) :
      Turn P k (k.goto (.writePark p data done))
  | spawn (h : P.mem) (i : Slot) (t : Task) (hfree : (k.tasks i).state = .free)
      (ht : Fresh k t) (hparent : t.parentPid = k.cur.pid) (hP : P.tasks k.cur) :
      Turn P k { k.setTask i t with nextPid := k.nextPid + 1 }
  | yield (hpark : Parks k.cur.cont = false) : Turn P k (schedYield k)
  | block (f : Task → Task) (h0 : k.current ≠ 0) (hf : Blocks k f)
      (hP : P.roles ∨ ∀ t, Rudo (f t).cont = false) (hactor : P.actor k.current)
      (hpark : P.park ∨ ∀ t, (f t).waitPipe = t.waitPipe) :
      Turn P k (schedYield (k.modCur f))
  | die (status : Int) (h0 : k.current ≠ 0) (hP : P.exit k.cur)
      (hpark : Parks k.cur.cont = false) :
      Turn P k (markZombie k k.current status)
  | terminate (status : Int) (h0 : k.current ≠ 0) (hpark : Parks k.cur.cont = false)
      (hP : P.term k.cur.pid k.cur.parentPid) :
      Turn P k (fdsRelease (markZombie k k.current status) k.current)
  | kill (i : Slot) (h0 : i ≠ 0) (hi : i ≠ k.current) (hlive : (k.tasks i).state ≠ .free)
      (hP : P.kill (k.tasks i)) (hpark : Parks k.cur.cont = false) :
      Turn P k (killParked (k.modTask i fun t => t.addSig sigKill) i)
  | reap (h : P.mem) (i : Slot) (h0 : i ≠ 0) (hi : i ≠ k.current)
      (hz : (k.tasks i).zombie = true) (hpark : Parks k.cur.cont = false) (hP : P.tasks k.cur) :
      Turn P k ((fdsRelease k i).setTask i Task.zero)

/-- One elementary change. -/
inductive Move (P : Policy) (k k' : Kernel) : Prop
  | change (h : Change P k k')
  | turn (h : Turn P k k')

/-- A sequence of moves. -/
abbrev Moves (P : Policy) : Kernel → Kernel → Prop := Relation.ReflTransGen (Move P)

section Events

/-- The event ends the current task while it keeps its descriptors: `sys_exit`,
or a fault that is not resolved. -/
def exits (k : Kernel) : Event → Bool
  | .resume =>
    match k.cur.cont with
    | .dispatch (.exit _) => true
    | _ => false
  | .fault va errCode =>
    userMode k.cur && !(pmapHandleFault k.vm k.cur.pml4Phys va errCode).1
  | _ => false

/-- The event is a call of `sys_pipe`. -/
def makesPipe (k : Kernel) : Event → Bool
  | .resume =>
    match k.cur.cont with
    | .dispatch (.pipe _) => true
    | _ => false
  | _ => false

/-- The other task that the event sends `SIGKILL` to. -/
def killTarget (k : Kernel) : Event → Option Slot
  | .resume =>
    match k.cur.cont with
    | .dispatch (.kill pid sig) =>
      if sigIndex sig = some sigKill then
        (schedFindPid k (toInt pid)).filter fun i => (k.tasks i).pid ≠ 0 ∧ i ≠ k.current
      else none
    | _ => none
  | _ => none

/-- The event may change memory or an address space. -/
def usesMemory (k : Kernel) : Event → Bool
  | .resume =>
    match k.cur.cont with
    | .dispatch (.brk _) => true
    | .dispatch .fork => true
    | .dispatch (.execve _ _ _) => true
    | .dispatch (.waitpid _) => true
    | .dispatch (.mmap _) => true
    | .dispatch (.munmap _ _) => true
    | .dispatch .rudoWait => true
    | .waitpid _ => true
    | .rudoWait => true
    | _ => false
  | .store _ _ => true
  | .fault _ _ => true
  | _ => false

/-- The event may change a user or the `rudo` queue. -/
def changesRoles (k : Kernel) : Event → Bool
  | .resume =>
    match k.cur.cont with
    | .dispatch (.setuid _) => true
    | .dispatch (.rudoRequest _) => true
    | .dispatch .rudoWait => true
    | .rudoWait => true
    | _ => false
  | _ => false

/-- The event may create or reap a task. -/
def changesTasks (k : Kernel) : Event → Bool
  | .resume =>
    match k.cur.cont with
    | .dispatch .fork => true
    | .dispatch (.waitpid _) => true
    | .waitpid _ => true
    | _ => false
  | _ => false

/-- The first pending signal that is neither ignored nor harmless ends the
task. -/
def doomedLoop : Nat → Task → Bool
  | 0, _ => false
  | fuel + 1, t =>
    match lowestSig t.sigPending with
    | none => false
    | some sig =>
      if t.sigHandler sig = sigIgn then doomedLoop fuel (clearSig t sig)
      else if t.sigHandler sig = sigDfl then
        if fatalSig sig then true else doomedLoop fuel (clearSig t sig)
      else false

/-- The pending signals end the task when they are delivered. -/
def Doomed (t : Task) : Prop := doomedLoop 33 t = true

instance (t : Task) : Decidable (Doomed t) := inferInstanceAs (Decidable (_ = _))

/-- The event delivers a signal that ends the current task. -/
def Terminates (k : Kernel) : Event → Prop
  | .resume =>
    match k.cur.cont with
    | .entered _ => Doomed k.cur
    | .dispatch (.kill pid sig) =>
      ∃ s ∈ sigIndex sig, schedFindPid k (toInt pid) = some k.current ∧ Doomed (k.cur.addSig s)
    | _ => False
  | _ => False

instance (k : Kernel) (e : Event) : Decidable (Terminates k e) := by
  unfold Terminates
  split
  · split <;> infer_instance
  · infer_instance

/-- The event parks the current task on a pipe. -/
def parks (k : Kernel) : Event → Bool
  | .resume => Parks k.cur.cont
  | _ => false

/-- The event may change the user context of the current task: the entry of a
system call, the delivery of a signal, `sys_sigreturn` and `sys_execve`. -/
def setsContext (k : Kernel) : Event → Bool
  | .syscall _ _ => true
  | .resume =>
    match k.cur.cont with
    | .entered _ => true
    | .dispatch (.kill _ _) => true
    | .dispatch (.sigreturn _ _) => true
    | .dispatch (.execve _ _ _) => true
    | _ => false
  | _ => false

/-- The policy allows the moves that the event makes. -/
structure Allowed (P : Policy) (k : Kernel) (e : Event) : Prop where
  mem : usesMemory k e = true → P.mem
  roles : changesRoles k e = true → P.roles
  tasks : changesTasks k e = true → P.tasks k.cur
  exit : exits k e = true → P.exit k.cur
  term : Terminates k e → P.term k.cur.pid k.cur.parentPid
  kill : ∀ i, killTarget k e = some i → P.kill (k.tasks i)
  pipe : makesPipe k e = true → P.pipe k.cur
  sigint : e = .ctrlC → P.sigint k
  actor : P.actor k.current
  park : parks k e = true → P.park
  ctx : setsContext k e = true → P.ctx

end Events

section Drifts

variable {P : Policy} {k k' : Kernel}

theorem Alike.mild {t t' : Task} (h : Alike t t') : Mild t t' where
  pid := h.pid
  parentPid := h.parentPid
  zombie := h.zombie
  exitStatus := h.exitStatus
  cont := h.cont
  state := Or.inl h.state
  waitPipe := fun _ => h.waitPipe
  sigPending := fun _ _ => h.sigPending

theorem shareFd_drift {mem : Prop} (new : Fd) (f : File) : Drift mem k (shareFd k new f) :=
  (Drift.setFds _ _).trans (fdRef_drift f)

theorem installPipe_drift {mem : Prop} {p : Nat} (rd wr : Fd) (hp : k.pipes p = none) :
    Drift mem k (installPipe k p rd wr) := by
  have h : Drift mem k (k.setPipe p (some pipeCreate)) := by
    refine Drift.setPipe (fun q hq => ?_) fun _ => pipeCreate_valid
    rw [hp] at hq
    cases hq
  exact h.trans (Drift.setFds _ _)

/-- A parked task that is sent a signal is woken. -/
theorem postSig_drift {mem : Prop} (i : Slot) (sig : Sig) : Drift mem k (postSig k i sig) := by
  unfold postSig
  split
  next hw =>
    refine Drift.setTask ⟨rfl, rfl, rfl, rfl, rfl, Or.inl rfl, fun _ => rfl, fun _ hp => ?_⟩
      (Or.inr ⟨rfl, rfl⟩)
    exact absurd hw hp
  next p hp =>
    -- Sending and waking count as one change: in between the task waits with a signal.
    have key (Q : Slot → Task → Prop) (hi : Q i (((k.tasks i).addSig sig).wakeOn p))
        (hq : ∀ j, Q j ((k.tasks j).wakeOn p)) (j : Slot) :
        Q j ((pipeWake (k.modTask i fun t => t.addSig sig) p).tasks j) := by
      by_cases hj : j = i
      · subst hj
        simp only [pipeWake, Kernel.modTask, Kernel.setTask, Function.update_self]
        exact hi
      · simp only [pipeWake, Kernel.modTask, Kernel.setTask, Function.update_of_ne hj]
        exact hq j
    refine Drift.of_tasks (key (fun j t => Mild (k.tasks j) t) (Mild.addSig_wakeOn sig hp)
      fun j => Mild.wakeOn p _) rfl rfl rfl (Or.inr ⟨rfl, ?_, ?_⟩)
    · exact key (fun j t => t.pml4Phys = (k.tasks j).pml4Phys) (wakeOn_pml4Phys p _)
        fun j => wakeOn_pml4Phys p _
    · exact key (fun j t => t.kstack = (k.tasks j).kstack) (wakeOn_kstack p _)
        fun j => wakeOn_kstack p _

theorem Change.drift (h : Change P k k') : Drift P.mem k k' := by
  cases h with
  | frame _ htasks hcur hpid hpipes hvm =>
    refine Drift.of_tasks (fun i => ?_) hcur hpid hpipes (Or.inr ⟨hvm, ?_, ?_⟩)
    · rw [htasks]
      exact Mild.refl _
    · exact fun i => by rw [htasks]
    · exact fun i => by rw [htasks]
  | memory h vm => exact Drift.of_tasks (fun _ => Mild.refl _) rfl rfl rfl (Or.inl h)
  | edit i t h hpml4 => exact Drift.setTask h.mild (Or.inr ⟨hpml4, h.kstack⟩)
  | exec h t ht => exact Drift.setTask ht.mild (Or.inl h)
  | file fd f => exact Drift.setFds _ _
  | close fd => exact fdPut_drift _ _
  | share old new => exact shareFd_drift _ _
  | newPipe p rd wr hp => exact installPipe_drift rd wr hp
  | wakeAll p => exact pipeWake_drift p
  | transfer p q q' _ hq _ _ hv => exact transfer_drift p q' fun hr => hv (hr p q hq)
  | wake i => exact schedWake_drift i
  | inherit i => exact forkInherit_drift i
  | signal i sig => exact postSig_drift i sig
  | signalSelf sig hrun =>
    have hw : ¬ Waits k.cur := fun hw => TaskState.noConfusion (hrun.symm.trans hw.1)
    exact Drift.setTask ⟨rfl, rfl, rfl, rfl, rfl, Or.inl rfl, fun _ => rfl,
      fun h => absurd h hw⟩ (Or.inr ⟨rfl, rfl⟩)
  | clearWait hrun =>
    have hw : ¬ Waits k.cur := fun hw => TaskState.noConfusion (hrun.symm.trans hw.1)
    exact Drift.setTask ⟨rfl, rfl, rfl, rfl, rfl, Or.inl rfl, fun h => absurd h hw,
      fun h => absurd h hw⟩ (Or.inr ⟨rfl, rfl⟩)
  | sigint => exact raiseSigint_drift

end Drifts

end Mmix.Sys
