import Mmix.Sys.FrameRuns

/-!
# Kernel stacks

The task that holds the CPU is the only one that runs, its slot is never
reaped, and no live task has lost a page of its kernel stack. So the CPU never
runs on a stack that was given back.
-/

namespace Mmix.Sys

open Mm Fs Proc Kernel Forest

variable {k k' k₀ : Kernel}

/-- The slot that `sys_waitpid` applies `reap_task` to. -/
def reapTarget (k : Kernel) (pid : Word) : Option Slot :=
  (List.finRange 64).find? fun i => IsChild k i ∧ Wanted pid (k.tasks i) ∧ (k.tasks i).zombie

/-- A task is never its own parent. -/
theorem reapTarget_ne_current (hs : Sane k) {pid : Word} {i : Slot}
    (h : reapTarget k pid = some i) : i ≠ k.current := by
  have hfound := List.find?_some h
  obtain ⟨hchild, -, -⟩ := of_decide_eq_true hfound
  rintro rfl
  by_cases h0 : k.current = 0
  · have hpid := hs.idle_pid
    rw [← h0] at hpid
    exact hchild.2.2 hpid
  · exact absurd hchild.2.1 (ne_of_lt (hs.parent_lt k.current h0 hs.cur_live))

theorem Scheduling.tidy (h : Scheduling k .resume) : Tidy k .resume := by
  unfold Scheduling at h
  unfold Tidy
  dsimp only at h ⊢
  split
  next addr hc =>
    rw [hc] at h
    exact h.elim
  next addr len hc =>
    rw [hc] at h
    exact h.elim
  next pathNull file argv hc =>
    rw [hc] at h
    exact h.elim
  next => trivial

/-- Scheduling keeps the tenancies in order. -/
theorem Housed.scheduling (h : Homed False k) (hs : Sane k) {e : Event} (he : Scheduling k e)
    (hstep : Sys.step k e = some k') : Homed False k' := by
  cases e with
  | resume => exact h.step hs he.tidy False.elim hstep
  | fault va errCode =>
    obtain ⟨-, heq⟩ := Option.ite_none_right_eq_some.mp hstep
    exact h.of_handleFault hs (h.owned.handleFault_failed he) heq
  | _ => exact h.step hs (by exact trivial) False.elim hstep

/-- What the CPU relies on: one task runs, it is the current one, it is alive
and nobody reaps it, and the next one to run is alive. -/
structure CpuSafe (k : Kernel) : Prop where
  running : ∀ i, (k.tasks i).state = .running ↔ i = k.current
  live : k.cur.state ≠ .free
  unreaped : ∀ pid i, reapTarget k pid = some i → i ≠ k.current
  next_live : (k.tasks (pickNext k)).state ≠ .free

/-- No page of the kernel stack of a live task is free. -/
def StacksHeld (k : Kernel) : Prop :=
  ∀ i page f, (k.tasks i).state ≠ .free → (k.tasks i).kstack = some page → page ≤ f →
    f < page + kstackPages → ¬ k.vm.pmm.Free f

theorem Sane.cpuSafe (hs : Sane k) : CpuSafe k where
  running := fun i => by
    constructor
    · intro hrun
      by_contra hne
      exact hs.others i hne hrun
    · rintro rfl
      exact hs.running
  live := hs.cur_live
  unreaped := fun _ _ => reapTarget_ne_current hs
  next_live := by
    rcases pickNext_runnable hs.idle_runnable with hr | hr <;> rw [hr] <;> decide

theorem Housed.stacksHeld {c : Prop} (h : Homed c k) : StacksHeld k := by
  intro i page f hlive hpage hle hlt
  exact (h.owned.held f ⟨i, _, home_of_live hlive, page, hpage, hle, hlt⟩).1

/-- In every run of scheduling, forks, exits, kills, deadly faults and reaping
after boot, the CPU runs the one running task, on a stack that is not free. -/
theorem kernel_stacks_safe {vm : Vm} {init rudod : Option FileData} {es : List Event}
    (hboot : boot vm init rudod = some k₀) (hcond : Run.Along step Scheduling k₀ es)
    (hrun : Run.run step k₀ es = some k) :
    CpuSafe k ∧ (BootMemory vm → UserImage init → UserImage rudod → StacksHeld k) := by
  have hstart := boot_started hboot
  constructor
  · exact (Run.invariant (fun _ _ _ hs he => Sane.step hs he) hstart.sane hrun).cpuSafe
  · intro hvm hinit hrudod
    have hstep : ∀ k e k', Sane k ∧ Homed False k → Scheduling k e → Sys.step k e = some k' →
        Sane k' ∧ Homed False k' :=
      fun k e k' h hc he => ⟨h.1.step he, h.2.scheduling h.1 hc he⟩
    exact (Run.invariant_along hstep ⟨hstart.sane, boot_homed hvm hinit hrudod hboot⟩ hcond
      hrun).2.stacksHeld

/-- The first process forks, waits, and collects the child after its exit. -/
def forkAndReap : List Event :=
  .resume :: call .fork ++ call (.waitpid (-1)) ++ .resume :: call (.exit 0) ++
    [.resume, .resume, .tick, .resume, .resume]

theorem kernel_stacks_safe_forkAndReap : ∃ k₀ k,
    boot smallVm (some smallProgram) none = some k₀ ∧ Run.run step k₀ forkAndReap = some k ∧
    (k.tasks 2).state = .free ∧ k.nextPid = 3 ∧ CpuSafe k ∧ StacksHeld k := by
  have hrun : ∃ k₀, boot smallVm (some smallProgram) none = some k₀ ∧
      ∃ k, Run.runIf step Scheduling k₀ forkAndReap = some k ∧ (k.tasks 2).state = .free ∧
      k.nextPid = 3 := by
    decide +kernel
  obtain ⟨k₀, hboot, k, hrun, hfree, hnext⟩ := hrun
  obtain ⟨hcond, hrun⟩ := Run.runIf_eq_some hrun
  obtain ⟨hcpu, hheld⟩ := kernel_stacks_safe hboot hcond hrun
  exact ⟨k₀, k, hboot, hrun, hfree, hnext, hcpu,
    hheld ⟨by decide, fun _ _ => rfl⟩ (by decide) (by decide)⟩

end Mmix.Sys
