import Mmix.Sys.Boot
import Mmix.Sys.Edits

/-!
# Whom `sys_waitpid` waits for

A round of `sys_waitpid` looks for a child that has ended among those the
caller asks for, but it decides whether to block by whether there is any child
at all. A caller that asks for a process which is not its child while it has
another child therefore blocks, and no process it asked for can ever wake it.
-/

namespace Mmix.Sys

open Mm Fs Proc Kernel

variable {k k' : Kernel} {pid : Word}

/-- What a round of `sys_waitpid` should do: park the caller only for a child
that it asks for and that has not ended, and fail at once if it has no such
child. -/
structure WaitsForChild (k : Kernel) (pid : Word) (k' : Kernel) : Prop where
  parks : (k'.tasks k.current).state = .blocked →
    ∃ i, IsChild k i ∧ Wanted pid (k.tasks i) ∧ (k.tasks i).zombie = false
  fails : (∀ i, IsChild k i → ¬ Wanted pid (k.tasks i)) → k' = k.finish (-1)

/-- A caller that has children asks for one of them. -/
def AsksForChild (k : Kernel) (pid : Word) : Prop :=
  (∃ i, IsChild k i) → ∃ i, IsChild k i ∧ Wanted pid (k.tasks i)

instance (k : Kernel) (pid : Word) : Decidable (AsksForChild k pid) :=
  inferInstanceAs (Decidable (_ → _))

/-- What a round does. -/
theorem waitpidRound_cases (k : Kernel) (pid : Word) :
    (∃ i, IsChild k i ∧ Wanted pid (k.tasks i) ∧ (k.tasks i).zombie = true ∧
      waitpidRound k pid = (reapTask k i).finish (k.tasks i).pid) ∨
    (∀ i, IsChild k i → Wanted pid (k.tasks i) → (k.tasks i).zombie = false) ∧
      ((∃ i, IsChild k i) ∧ waitpidRound k pid =
          schedYield (k.modCur fun t => { t with state := .blocked, cont := .waitpid pid }) ∨
        (¬ ∃ i, IsChild k i) ∧ waitpidRound k pid = k.finish (-1)) := by
  unfold waitpidRound
  split
  next i hfind =>
    left
    have hfound := List.find?_some hfind
    obtain ⟨hchild, hwant, hz⟩ := of_decide_eq_true hfound
    exact ⟨i, hchild, hwant, hz, rfl⟩
  next hnone =>
    right
    refine ⟨waitpidRound_none hnone, ?_⟩
    split
    next hany => exact Or.inl ⟨hany, rfl⟩
    next hany => exact Or.inr ⟨hany, rfl⟩

/-- The argument of `sys_waitpid` at the points where one of its rounds begins. -/
def waitpidArg : Cont → Option Word
  | .dispatch (.waitpid pid) => some pid
  | .waitpid pid => some pid
  | _ => none

theorem waitpidRound_of_step (hcont : waitpidArg k.cur.cont = some pid)
    (hstep : step k .resume = some k') : k' = waitpidRound k pid := by
  have hresume : resume k = some k' := hstep
  unfold waitpidArg at hcont
  split at hcont
  all_goals
    cases hcont
  · rename_i heq
    simp only [resume, heq, dispatch] at hresume
    exact (Option.some.inj hresume).symm
  · rename_i heq
    simp only [resume, heq] at hresume
    exact (Option.some.inj hresume).symm

/-- The parked caller goes on in `sys_waitpid`. -/
theorem schedYield_blocked_cont :
    ((schedYield (k.modCur fun t => { t with state := .blocked, cont := .waitpid pid })).tasks
      k.current).cont = .waitpid pid := by
  obtain ⟨u, hu⟩ := @schedYield_tasks
    (k.modCur fun t => { t with state := .blocked, cont := .waitpid pid }) k.current
  rw [hu]
  simp only [modCur, modTask, setTask, Function.update_self]

theorem reapTask_current {i : Slot} : (reapTask k i).current = k.current :=
  ((OnlyTables.fdsRelease i).trans (OnlyTables.setTask i _)).current

/-- In every reachable state, a round of `sys_waitpid` waits only for a child
exactly if the caller asks for one of its children or has none. -/
theorem waitpid_waits_for_child_iff {vm : Vm} {init rudod : Option FileData} {k₀ : Kernel}
    {es : List Event} (hboot : boot vm init rudod = some k₀) (hrun : Run.run step k₀ es = some k)
    (hcont : waitpidArg k.cur.cont = some pid) (hstep : step k .resume = some k') :
    WaitsForChild k pid k' ↔ AsksForChild k pid := by
  have hs : Sane k :=
    Run.invariant (fun k e k' (h : Sane k) he => h.step he) (boot_started hboot).sane hrun
  have hs' : Sane k' := hs.step hstep
  obtain rfl := waitpidRound_of_step hcont hstep
  constructor
  · rintro ⟨-, hfails⟩ hchild
    by_contra hnone
    have hunwanted : ∀ i, IsChild k i → ¬ Wanted pid (k.tasks i) :=
      fun i hi hw => hnone ⟨i, hi, hw⟩
    rcases waitpidRound_cases k pid with ⟨i, hi, hw, -⟩ | ⟨-, ⟨-, heq⟩ | ⟨hno, -⟩⟩
    · exact hunwanted i hi hw
    · -- The caller parks, which is not the failure it should see.
      have hcont' := @schedYield_blocked_cont k pid
      rw [← heq, hfails hunwanted] at hcont'
      simp only [finish, modCur, modTask, setTask, Function.update_self] at hcont'
      cases hcont'
    · exact hno hchild
  · intro hasks
    rcases waitpidRound_cases k pid with ⟨i, hi, hw, hz, heq⟩ | ⟨hlive, hrest⟩
    · refine ⟨fun hblocked => ?_, fun hnone => absurd hw (hnone i hi)⟩
      -- After the child is reaped, the caller still holds the CPU.
      have hcur : (waitpidRound k pid).current = k.current := by
        rw [heq]
        exact reapTask_current
      have hrunning : ((waitpidRound k pid).tasks (waitpidRound k pid).current).state = .running :=
        hs'.running
      rw [hcur, hblocked] at hrunning
      cases hrunning
    · rcases hrest with ⟨hany, heq⟩ | ⟨hno, heq⟩
      · obtain ⟨i, hi, hw⟩ := hasks hany
        exact ⟨fun _ => ⟨i, hi, hw, hlive i hi hw⟩, fun hnone => absurd hw (hnone i hi)⟩
      · refine ⟨fun hblocked => ?_, fun _ => heq⟩
        rw [heq] at hblocked
        simp only [finish, modCur, modTask, setTask, Function.update_self] at hblocked
        exact absurd (hs.running.symm.trans hblocked) (by decide)

/-- A process calls `sys_waitpid`, up to the first round. -/
def asks (pid : Word) : List Event := [.syscall (.waitpid pid) ⟨0, 0, 0x202⟩, .resume]

/-- A process that has forked is parked when it asks for its child, and when it
asks for a process that does not exist. -/
theorem forked_asks : ∃ k₀, boot smallVm (some smallProgram) none = some k₀ ∧
    ∃ k₁, Run.run step k₀ (.resume :: call .fork) = some k₁ ∧
    (∃ k, Run.run step k₁ (asks 2) = some k ∧ waitpidArg k.cur.cont = some 2 ∧
      AsksForChild k 2 ∧ ∃ k', step k .resume = some k' ∧
      (k'.tasks k.current).state = .blocked) ∧
    ∃ k, Run.run step k₁ (asks 99) = some k ∧ waitpidArg k.cur.cont = some 99 ∧
      (∀ i, IsChild k i → ¬ Wanted 99 (k.tasks i)) ∧ ∃ k', step k .resume = some k' ∧
      (k'.tasks k.current).state = .blocked := by
  decide +kernel

/-- A process waits for its child, which lives. -/
theorem waitpid_waits_for_child_forked : ∃ k₀ k k',
    boot smallVm (some smallProgram) none = some k₀ ∧
    Run.run step k₀ ((.resume :: call .fork) ++ asks 2) = some k ∧ step k .resume = some k' ∧
    (k'.tasks k.current).state = .blocked ∧ WaitsForChild k 2 k' := by
  obtain ⟨k₀, hboot, k₁, hfork, ⟨k, hasks, hcont, hchild, k', hstep, hblocked⟩, -⟩ := forked_asks
  have hrun := Run.run_append hfork hasks
  exact ⟨k₀, k, k', hboot, hrun, hstep, hblocked,
    (waitpid_waits_for_child_iff hboot hrun hcont hstep).mpr hchild⟩

/-- A process that has a child and waits for a process which does not exist is
parked. -/
theorem waitpid_parks_for_nobody : ∃ k₀ k k',
    boot smallVm (some smallProgram) none = some k₀ ∧
    Run.run step k₀ ((.resume :: call .fork) ++ asks 99) = some k ∧
    waitpidArg k.cur.cont = some 99 ∧ step k .resume = some k' ∧ ¬ WaitsForChild k 99 k' := by
  obtain ⟨k₀, hboot, k₁, hfork, -, k, hasks, hcont, hnone, k', hstep, hblocked⟩ := forked_asks
  refine ⟨k₀, k, k', hboot, Run.run_append hfork hasks, hcont, hstep, fun h => ?_⟩
  obtain ⟨i, hi, hw, -⟩ := h.parks hblocked
  exact hnone i hi hw

end Mmix.Sys
