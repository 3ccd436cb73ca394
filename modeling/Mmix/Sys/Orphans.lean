import Mmix.Sys.Life

/-!
# Parents

Nothing in the kernel gives the children of a dead task to another parent. So
every task created after boot has a live parent just as long as no task ends
that still has children.
-/

namespace Mmix.Sys

open Mm Fs Proc Kernel

variable {n : Int} {k k' k₀ : Kernel}

/-- Some task that has not ended has the identifier. -/
def Alive (k : Kernel) (pid : Int) : Prop :=
  ∃ j, (k.tasks j).state ≠ .free ∧ (k.tasks j).zombie = false ∧ (k.tasks j).pid = pid

/-- Every task with an identifier of at least `n` has a parent that is alive. -/
def Parented (n : Int) (k : Kernel) : Prop :=
  ∀ i, (k.tasks i).state ≠ .free → n ≤ (k.tasks i).pid → Alive k (k.tasks i).parentPid

/-- No task with an identifier of at least `n` has the given parent. -/
def NoKids (n : Int) (k : Kernel) (pid : Int) : Prop :=
  ∀ i, (k.tasks i).state ≠ .free → n ≤ (k.tasks i).pid → (k.tasks i).parentPid ≠ pid

instance (n : Int) (k : Kernel) (pid : Int) : Decidable (NoKids n k pid) :=
  inferInstanceAs (Decidable (∀ _, _))

/-- The event ends no task that has children, and no zombie forks. -/
structure KeepsParents (n : Int) (k : Kernel) (e : Event) : Prop where
  exit : exits k e = true → NoKids n k k.cur.pid
  term : Terminates k e → NoKids n k k.cur.pid
  kill : ∀ i ∈ killTarget k e, NoKids n k (k.tasks i).pid
  fork : changesTasks k e = true → k.cur.zombie = false

instance (n : Int) (k : Kernel) (e : Event) : Decidable (KeepsParents n k e) :=
  decidable_of_iff ((exits k e = true → NoKids n k k.cur.pid) ∧
    (Terminates k e → NoKids n k k.cur.pid) ∧
    (∀ i ∈ killTarget k e, NoKids n k (k.tasks i).pid) ∧
    (changesTasks k e = true → k.cur.zombie = false))
    ⟨fun h => ⟨h.1, h.2.1, h.2.2.1, h.2.2.2⟩, fun h => ⟨h.exit, h.term, h.kill, h.fork⟩⟩

section Aging

/-- The policy that lets only tasks without children end. -/
def childlessEnds (n : Int) (k : Kernel) : Policy :=
  { Policy.any with
    tasks := fun _ => False
    exit := fun t => NoKids n k t.pid
    term := fun pid _ => NoKids n k pid
    kill := fun t => NoKids n k t.pid }

/-- The tasks are the same, and only tasks without children have ended. -/
structure Aging (n : Int) (k k' : Kernel) : Prop where
  free_iff : ∀ i, (k'.tasks i).state = .free ↔ (k.tasks i).state = .free
  pid : ∀ i, (k'.tasks i).pid = (k.tasks i).pid
  parentPid : ∀ i, (k'.tasks i).parentPid = (k.tasks i).parentPid
  zombie : ∀ i, (k'.tasks i).zombie = true →
    (k.tasks i).zombie = true ∨ NoKids n k (k.tasks i).pid

theorem Aging.move (h : Aging n k₀ k) (hs : Sane k) (hm : Move (childlessEnds n k₀) k k') :
    Aging n k₀ k' := by
  have hlife := hm.life hs
  have hkept (i : Slot) : Kept (childlessEnds n k₀) (k.tasks i) (k'.tasks i) := by
    cases hlife i with
    | kept hk => exact hk
    | died hk => exact hk
    | born _ _ _ hP => exact hP.elim
    | reaped _ _ hP => exact hP.elim
  refine ⟨fun i => (hkept i).free_iff.trans (h.free_iff i),
    fun i => (hkept i).pid.trans (h.pid i),
    fun i => (hkept i).parentPid.trans (h.parentPid i), fun i hz => ?_⟩
  cases hlife i with
  | kept _ hsame => exact h.zombie i (hsame ▸ hz)
  | died _ hP =>
    rw [← h.pid i]
    rcases hP with hP | hP | hP <;> exact Or.inr hP
  | born _ _ _ hP => exact hP.elim
  | reaped _ _ hP => exact hP.elim

theorem Parented.aging (h : Parented n k) (ha : Aging n k k') : Parented n k' := by
  intro i hl hn
  have hl' : (k.tasks i).state ≠ .free := fun hf => hl ((ha.free_iff i).mpr hf)
  rw [ha.pid i] at hn
  obtain ⟨j, hj, hz, hpid⟩ := h i hl' hn
  refine ⟨j, fun hf => hj ((ha.free_iff j).mp hf), ?_, ?_⟩
  · cases hz' : (k'.tasks j).zombie with
    | false => rfl
    | true =>
      rcases ha.zombie j hz' with hold | hkids
      · rw [hz] at hold
        cases hold
      · exact absurd hpid.symm (hkids i hl' hn)
  · rw [ha.pid j, ha.parentPid i, hpid]

end Aging

section Births

/-- The policy for the calls that create and reap tasks. -/
def livingParents : Policy :=
  { Policy.any with
    tasks := fun t => t.zombie = false
    exit := fun _ => False
    term := fun _ _ => False
    kill := fun _ => False }

theorem Alive.move (hs : Sane k) (hm : Move livingParents k k') {pid : Int} (h : Alive k pid) :
    Alive k' pid := by
  obtain ⟨j, hj, hz, hpid⟩ := h
  cases hm.life hs j with
  | kept hk hsame =>
    exact ⟨j, fun hf => hj (hk.free_iff.mp hf), hsame.trans hz, hk.pid.trans hpid⟩
  | died _ hP => rcases hP with hP | hP | hP <;> exact hP.elim
  | born hfree => exact absurd hfree hj
  | reaped hz' =>
    rw [hz] at hz'
    cases hz'

theorem Parented.move (h : Parented n k) (hs : Sane k) (hm : Move livingParents k k') :
    Parented n k' := by
  intro i hl hn
  cases hm.life hs i with
  | kept hk =>
    rw [hk.pid] at hn
    rw [hk.parentPid]
    exact (h i (fun hf => hl (hk.free_iff.mpr hf)) hn).move hs hm
  | died _ hP => rcases hP with hP | hP | hP <;> exact hP.elim
  | born _ _ hparent hP =>
    rw [hparent]
    exact Alive.move hs hm ⟨k.current, hs.cur_live, hP, rfl⟩
  | reaped _ hfree => exact absurd hfree hl

end Births

theorem exits_changesTasks {e : Event} (h : changesTasks k e = true) :
    exits k e = false ∧ ¬ Terminates k e ∧ killTarget k e = none := by
  cases e with
  | resume =>
    simp only [changesTasks] at h
    split at h
    next hc => simp [exits, Terminates, killTarget, hc]
    next hc => simp [exits, Terminates, killTarget, hc]
    next hc => simp [exits, Terminates, killTarget, hc]
    next => cases h
  | _ => cases h

theorem Parented.step (h : Parented n k) (hs : Sane k) {e : Event} (hc : KeepsParents n k e)
    (he : step k e = some k') : Parented n k' := by
  cases ht : changesTasks k e with
  | false =>
    have hallow : Allowed (childlessEnds n k) k e :=
      { allowed_any k e with
        tasks := fun htrue => absurd (ht.symm.trans htrue) (by decide)
        exit := hc.exit
        term := hc.term
        kill := hc.kill }
    have hrefl : Aging n k k := ⟨fun _ => Iff.rfl, fun _ => rfl, fun _ => rfl, fun _ => Or.inl⟩
    exact h.aging (moves_invariant (fun _ _ hs h hm => Aging.move h hs hm) hs hrefl
      (step_moves hs hallow he))
  | true =>
    obtain ⟨hexit, hterm, hkill⟩ := exits_changesTasks ht
    have hallow : Allowed livingParents k e :=
      { allowed_any k e with
        tasks := hc.fork
        exit := fun htrue => absurd (hexit.symm.trans htrue) (by decide)
        term := fun htrue => absurd htrue hterm
        kill := fun i hi => absurd (hkill.symm.trans hi) (by simp) }
    exact moves_invariant (fun _ _ hs h hm => Parented.move h hs hm) hs h
      (step_moves hs hallow he)

/-- If no task ends before its children, every task created after boot has a
live parent that can reap it. -/
theorem parents_alive_of_childless_ends {vm : Vm} {init rudod : Option FileData}
    {es : List Event} (hboot : boot vm init rudod = some k₀)
    (hcond : Run.Along step (KeepsParents k₀.nextPid) k₀ es) (hrun : Run.run step k₀ es = some k) :
    ∀ i, (k.tasks i).state ≠ .free → k₀.nextPid ≤ (k.tasks i).pid →
      Alive k (k.tasks i).parentPid := by
  have hstep : ∀ k e k', Sane k ∧ Parented k₀.nextPid k → KeepsParents k₀.nextPid k e →
      Sys.step k e = some k' → Sane k' ∧ Parented k₀.nextPid k' :=
    fun k e k' h hc he => ⟨h.1.step he, h.2.step h.1 hc he⟩
  have hsane := (boot_started hboot).sane
  have hstart : Parented k₀.nextPid k₀ := fun i hl hn =>
    absurd (hsane.pid_lt i hl) (not_lt.mpr hn)
  exact (Run.invariant_along hstep ⟨hsane, hstart⟩ hcond hrun).2

/-- A process starts and forks. -/
def startAndFork : List Event := .resume :: call .fork

theorem parents_alive_of_childless_ends_startAndFork : ∃ k₀ k,
    boot smallVm (some smallProgram) none = some k₀ ∧ Run.run step k₀ startAndFork = some k ∧
    (k.tasks 2).parentPid = 1 ∧ Alive k 1 := by
  have hrun : ∃ k₀, boot smallVm (some smallProgram) none = some k₀ ∧
      ∃ k, Run.runIf step (KeepsParents k₀.nextPid) k₀ startAndFork = some k ∧
      (k.tasks 2).state ≠ .free ∧ k₀.nextPid ≤ (k.tasks 2).pid ∧ (k.tasks 2).parentPid = 1 := by
    decide +kernel
  obtain ⟨k₀, hboot, k, hrun, hlive, hpid, hparent⟩ := hrun
  obtain ⟨hcond, hrun⟩ := Run.runIf_eq_some hrun
  refine ⟨k₀, k, hboot, hrun, hparent, ?_⟩
  rw [← hparent]
  exact parents_alive_of_childless_ends hboot hcond hrun 2 hlive hpid

/-- The second process exits before its child, which is left with a dead parent
although the first process lives. -/
theorem orphan_keeps_dead_parent : ∃ k₀,
    boot smallVm (some smallProgram) (some smallProgram) = some k₀ ∧
    ∃ k, Run.run step k₀ (startAndFork ++ call (.exit 0)) = some k ∧
    (k.tasks 3).state ≠ .free ∧ k₀.nextPid ≤ (k.tasks 3).pid ∧ (k.tasks 1).zombie = false ∧
    ∀ j, (k.tasks j).state ≠ .free → (k.tasks j).zombie = false →
      (k.tasks j).pid ≠ (k.tasks 3).parentPid := by
  decide +kernel

end Mmix.Sys
