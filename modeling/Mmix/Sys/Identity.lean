import Mmix.Sys.PipeOps
import Mmix.Sys.Privilege

/-!
# What a child is

A task acts under a user, in a process group and in a session. `sys_fork` has
`sched_spawn_user_task` make the child, which gives every task the user 1000
and the process group and session of the number of its parent, and copies only
the descriptors and the bounds of the heap afterwards.
-/

namespace Mmix.Sys

open Mm Fs Proc Kernel

/-- The user, the process group and the session of a task. -/
def identity (t : Task) : BitVec 32 × Int × Int := (t.uid, t.pgid, t.sid)

/-- An edit that leaves alone what a task is. -/
structure SameTask (t t' : Task) : Prop where
  identity : identity t' = identity t
  pid : t'.pid = t.pid
  state : t'.state = t.state

variable {k k' : Kernel} {i : Slot}

theorem modTask_same {f : Task → Task} (hf : ∀ t, SameTask t (f t)) (k : Kernel) (j i : Slot) :
    SameTask (k.tasks i) ((k.modTask j f).tasks i) :=
  forall_setTask (Q := fun i t => SameTask (k.tasks i) t) (hf _) (fun _ _ => ⟨rfl, rfl, rfl⟩) i

theorem forkInherit_same (k : Kernel) (child i : Slot) :
    SameTask (k.tasks i) ((forkInherit k child).tasks i) := by
  rw [forkInherit, addFdRefs_tasks]
  apply modTask_same
  intro t
  exact ⟨rfl, rfl, rfl⟩

theorem finish_same (k : Kernel) (r : Int) (i : Slot) :
    SameTask (k.tasks i) ((k.finish r).tasks i) :=
  modTask_same (f := fun t => { t with cont := .user, rax := r }) (fun _ => ⟨rfl, rfl, rfl⟩)
    k k.current i

/-- What is found by its number after a call that returns it was there before. -/
theorem identity_of_finish {pid : Int} {id : BitVec 32 × Int × Int}
    (hid : ∀ i, (k.tasks i).state ≠ .free → (k.tasks i).pid = pid → identity (k.tasks i) = id)
    (hlive : ((k.finish pid).tasks i).state ≠ .free)
    (hpid : ((k.finish pid).tasks i).pid = (k.finish pid).cur.rax) :
    identity ((k.finish pid).tasks i) = id := by
  obtain ⟨hident, hnum, hstate⟩ := finish_same k pid i
  rw [finish_rax, hnum] at hpid
  rw [hstate] at hlive
  rw [hident]
  exact hid i hlive hpid

/-- The task that `sched_spawn_user_task` numbers has the fixed identity. -/
theorem schedSpawn_identity {pml4 entry rsp : Word} {parent pid : Int}
    (hlt : ∀ i, (k.tasks i).state ≠ .free → (k.tasks i).pid < k.nextPid)
    (hspawn : schedSpawnUserTask k pml4 entry rsp parent = (some pid, k'))
    (hlive : (k'.tasks i).state ≠ .free) (hpid : (k'.tasks i).pid = pid) :
    identity (k'.tasks i) = (1000, parent, parent) := by
  rw [schedSpawnUserTask] at hspawn
  cases halloc : allocSlot k with
  | none =>
    rw [halloc] at hspawn
    cases hspawn
  | some j =>
    rw [halloc] at hspawn
    dsimp only at hspawn
    cases hstack : pmmAlloc kstackPages k.vm.pmm with
    | mk kstack pmm =>
      rw [hstack] at hspawn
      cases kstack with
      | none => cases hspawn
      | some kstack =>
        obtain ⟨hnum, rfl⟩ := Prod.mk.inj hspawn
        cases hnum
        by_cases hi : i = j
        · subst hi
          simp only [setTask, Function.update_self]
          rfl
        · -- The older tasks have smaller numbers.
          simp only [setTask, setVm, Function.update_of_ne hi] at hlive hpid
          exact absurd hpid (Int.ne_of_lt (hlt i hlive))

/-- The child of a successful `sys_fork`, found by the number that the parent
gets, has the fixed identity. -/
theorem sysFork_identity (hs : Sane k) (hok : (sysFork k).cur.rax ≠ -1)
    (hlive : ((sysFork k).tasks i).state ≠ .free)
    (hpid : ((sysFork k).tasks i).pid = (sysFork k).cur.rax) :
    identity ((sysFork k).tasks i) = (1000, k.cur.pid, k.cur.pid) := by
  rw [sysFork] at hok hlive hpid ⊢
  by_cases hentry : k.cur.userEntry = 0
  · rw [if_pos hentry] at hok
    exact absurd (finish_rax (-1)) hok
  rw [if_neg hentry] at hok hlive hpid ⊢
  cases hfork : pmapFork k.vm k.cur.pml4Phys with
  | mk childPml4 vm =>
    rw [hfork] at hok hlive hpid
    dsimp only at hok hlive hpid ⊢
    by_cases h0 : childPml4 = 0
    · rw [if_pos h0] at hok
      exact absurd (finish_rax (-1)) hok
    rw [if_neg h0] at hok hlive hpid ⊢
    generalize hk₁ : k.setVm { vm with cr3 := k.cur.pml4Phys } = k₁ at hok hlive hpid ⊢
    have hlt : ∀ i, (k₁.tasks i).state ≠ .free → (k₁.tasks i).pid < k₁.nextPid := by
      rw [← hk₁]
      exact hs.pid_lt
    have hparent : k₁.cur.pid = k.cur.pid := by rw [← hk₁]; rfl
    rw [← hparent]
    cases hspawn : schedSpawnUserTask k₁ childPml4 k₁.cpu.rip k₁.cpu.rsp k₁.cur.pid with
    | mk res k₂ =>
      rw [hspawn] at hok hlive hpid
      cases res with
      | none => exact absurd (finish_rax (-1)) hok
      | some pid =>
        dsimp only at hlive hpid ⊢
        cases hfind : schedFindPid k₂ pid with
        | none =>
          rw [hfind] at hlive hpid
          refine identity_of_finish (fun i hl hp => ?_) hlive hpid
          exact schedSpawn_identity hlt hspawn hl hp
        | some child =>
          rw [hfind] at hlive hpid
          refine identity_of_finish (fun i hl hp => ?_) hlive hpid
          obtain ⟨hident, hnum, hstate⟩ := forkInherit_same k₂ child i
          rw [hident]
          exact schedSpawn_identity hlt hspawn (hstate ▸ hl) (hnum ▸ hp)

/-- The child of a successful `sys_fork` has the user, the process group and
the session of its parent exactly when the parent is the user 1000 and leads a
process group and a session of its own. -/
theorem fork_inherits_identity_iff {vm : Vm} {init rudod : Option FileData} {k₀ : Kernel}
    {es : List Event} (hb : boot vm init rudod = some k₀) (hrun : Run.run step k₀ es = some k)
    (hcall : k.cur.cont = .dispatch .fork) (he : step k .resume = some k')
    (hok : k'.cur.rax ≠ -1) (hlive : (k'.tasks i).state ≠ .free)
    (hpid : (k'.tasks i).pid = k'.cur.rax) :
    ((k'.tasks i).uid = k.cur.uid ∧ (k'.tasks i).pgid = k.cur.pgid ∧
      (k'.tasks i).sid = k.cur.sid) ↔
    (k.cur.uid = 1000 ∧ k.cur.pgid = k.cur.pid ∧ k.cur.sid = k.cur.pid) := by
  have hs : Sane k := Run.invariant (fun _ _ _ h he => Sane.step h he) (boot_started hb).sane hrun
  have hk' : k' = sysFork k := by
    have hres : step k .resume = some (sysFork k) := by
      rw [step, resume, hcall]
      rfl
    exact Option.some.inj (he.symm.trans hres)
  subst hk'
  have hident := sysFork_identity hs hok hlive hpid
  obtain ⟨huid, hrest⟩ := Prod.mk.inj hident
  obtain ⟨hpgid, hsid⟩ := Prod.mk.inj hrest
  rw [huid, hpgid, hsid]
  exact and_congr eq_comm (and_congr eq_comm eq_comm)

/-- The daemon, which runs as root, forks. -/
def rootForks : List Event := .resume :: (call .fork).dropLast

theorem rootForks_run : ∃ k₀, boot smallVm (some smallProgram) (some smallProgram) = some k₀ ∧
    ∃ k, Run.run step k₀ rootForks = some k ∧
      (match k.cur.cont with | .dispatch .fork => true | _ => false) = true ∧
      ∃ k', step k .resume = some k' ∧ (k'.tasks 3).pid = k'.cur.rax ∧
        (k'.tasks 3).pid = 3 ∧ (k'.tasks 3).state = .ready ∧
        k.cur.uid = 0 ∧ (k'.tasks 3).uid ≠ 0 ∧ (k'.tasks 3).sid ≠ k.cur.sid := by
  decide +kernel

theorem fork_inherits_identity_rootForks : ∃ k₀ k k',
    boot smallVm (some smallProgram) (some smallProgram) = some k₀ ∧
    Run.run step k₀ rootForks = some k ∧ step k .resume = some k' ∧
    (((k'.tasks 3).uid = k.cur.uid ∧ (k'.tasks 3).pgid = k.cur.pgid ∧
      (k'.tasks 3).sid = k.cur.sid) ↔
    (k.cur.uid = 1000 ∧ k.cur.pgid = k.cur.pid ∧ k.cur.sid = k.cur.pid)) := by
  obtain ⟨k₀, hb, k, hrun, hfork, k', he, hpid, hnum, hready, -⟩ := rootForks_run
  have hcall : k.cur.cont = .dispatch .fork := by
    split at hfork
    · assumption
    · cases hfork
  have hok : k'.cur.rax ≠ -1 := by
    rw [← hpid, hnum]
    decide
  have hlive : (k'.tasks 3).state ≠ .free := by
    rw [hready]
    decide
  exact ⟨k₀, k, k', hb, hrun, he, fork_inherits_identity_iff hb hrun hcall he hok hlive hpid⟩

/-- A root process forks a child that is not root and not of its session. -/
theorem fork_drops_root : ∃ k₀ k k',
    boot smallVm (some smallProgram) (some smallProgram) = some k₀ ∧
    Run.run step k₀ rootForks = some k ∧ step k .resume = some k' ∧
    (k'.tasks 3).pid = k'.cur.rax ∧ (k'.tasks 3).state = .ready ∧
    k.cur.uid = 0 ∧ (k'.tasks 3).uid ≠ 0 ∧ (k'.tasks 3).sid ≠ k.cur.sid := by
  obtain ⟨k₀, hb, k, hrun, -, k', he, hpid, -, hrest⟩ := rootForks_run
  exact ⟨k₀, k, k', hb, hrun, he, hpid, hrest⟩

end Mmix.Sys
