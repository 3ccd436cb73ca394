import Mmix.Sys.Life
import Mmix.Sys.WakeUp

/-!
# What every run keeps

A process identifier names one task for ever, a task is younger than its parent,
and the ring of every pipe stays in order.
-/

namespace Mmix.Sys

open Mm Fs Proc Kernel Relation

/-- The first task is a child of the second; the idle task is nobody's. -/
abbrev ChildOf (k : Kernel) (j i : Slot) : Prop :=
  j ≠ 0 ∧ (k.tasks j).state ≠ .free ∧ (k.tasks j).parentPid = (k.tasks i).pid

variable {vm : Vm} {init rudod : Option FileData} {k₀ k k₁ k' : Kernel} {es es₁ es₂ : List Event}
  {i j : Slot}

theorem sane_run (hs : Sane k) (hrun : Run.run step k es = some k') :
    Sane k' ∧ k.nextPid ≤ k'.nextPid :=
  Run.invariant (I := fun k' => Sane k' ∧ k.nextPid ≤ k'.nextPid)
    (fun _ _ _ h he => ⟨h.1.step he, h.2.trans (elder_step h.1 he).1⟩) ⟨hs, le_rfl⟩ hrun

/-- The first process makes a pipe and forks. -/
theorem forked_lives : ∃ k₀, boot smallVm (some smallProgram) none = some k₀ ∧
    ∃ k, Run.run step k₀ (.resume :: call (.pipe (some 5))) = some k ∧
    ∃ k', Run.run step k (call .fork) = some k' ∧ (k'.pipes 5).isSome ∧ ChildOf k' 2 1 ∧
      (k.tasks 1).state ≠ .free ∧ (k'.tasks 1).state ≠ .free ∧
      (k'.tasks 1).pid = (k.tasks 1).pid := by
  decide +kernel

/-- Two tasks that have the same identifier at two times of a run are one task,
and it was there at all times between them. -/
theorem pid_names_one_task (hboot : boot vm init rudod = some k₀)
    (hrun : Run.run step k₀ es = some k) (h₁ : Run.run step k es₁ = some k₁)
    (h₂ : Run.run step k₁ es₂ = some k') (hi : (k.tasks i).state ≠ .free)
    (hj : (k'.tasks j).state ≠ .free) (hpid : (k'.tasks j).pid = (k.tasks i).pid) :
    j = i ∧ (k₁.tasks i).state ≠ .free ∧ (k₁.tasks i).pid = (k.tasks i).pid := by
  have hs := (sane_run (boot_started hboot).sane hrun).1
  obtain ⟨hs₁, hle⟩ := sane_run hs h₁
  have hlt : (k'.tasks j).pid < k.nextPid := hpid ▸ hs.pid_lt i hi
  obtain ⟨hlive, hsame⟩ := elder_run hs (Run.run_append h₁ h₂) hj hlt
  obtain rfl : j = i := hs.pid_inj j i hlive hi (hsame.symm.trans hpid)
  obtain ⟨hlive₁, hsame₁⟩ := elder_run hs₁ h₂ hj (hlt.trans_le hle)
  exact ⟨rfl, hlive₁, hsame₁.symm.trans hpid⟩

theorem pid_names_one_task_forked : ∃ k k', Run.run step k (call .fork) = some k' ∧
    (k'.tasks 1).state ≠ .free ∧ (k'.tasks 1).pid = (k.tasks 1).pid := by
  obtain ⟨k₀, hboot, k, hrun, k', hfork, -, -, hi, hj, hpid⟩ := forked_lives
  exact ⟨k, k', hfork, (pid_names_one_task hboot hrun hfork (Run.run_nil k') hi hj hpid).2⟩

/-- The indices of every pipe are inside its buffer and agree with its length. -/
theorem pipe_rings_valid (hboot : boot vm init rudod = some k₀)
    (hrun : Run.run step k₀ es = some k) : Rings k := by
  have hstart := boot_started hboot
  obtain ⟨-, hv⟩ := run_invariant (fun k e _ => allowed_any k e) (fun _ _ hs h hm =>
    Vigilant.move h hs hm) hstart.sane hstart.vigilant (Run.along_true k₀ es) hrun
  exact hv.parked.rings

theorem pipe_rings_valid_forked : ∃ (k : Kernel) (q : Pipe), k.pipes 5 = some q ∧
    q.Valid pipeSize := by
  obtain ⟨k₀, hboot, k, hrun, k', hfork, hpipe, -⟩ := forked_lives
  obtain ⟨q, hq⟩ := Option.isSome_iff_exists.mp hpipe
  exact ⟨k', q, hq, pipe_rings_valid hboot (Run.run_append hrun hfork) 5 q hq⟩

end Mmix.Sys
