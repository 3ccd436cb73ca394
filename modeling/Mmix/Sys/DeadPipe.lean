import Mmix.Sys.WakeUp

/-!
# Pipe ends of dead processes

A process that ends by a fatal signal of its own releases its descriptors at
once. One that calls `sys_exit`, is killed from outside or faults keeps them
until it is reaped. If no process ends in the latter ways while it holds a
pipe, the readers and writers that remain never wait for the dead.
-/

namespace Mmix.Sys

open Mm Fs Proc Kernel Tally

variable {k k' : Kernel}

/-- A task that ends and keeps its descriptors has none of pipes, and a zombie
makes no pipe. -/
def endsWithoutPipes : Policy :=
  { Policy.any with
    exit := NoPipes
    kill := NoPipes
    pipe := fun t => t.zombie = false }

/-- No zombie has a descriptor of a pipe. -/
def ZombiesPipeless (k : Kernel) : Prop :=
  ∀ i, (k.tasks i).zombie = true → NoPipes (k.tasks i)

theorem ZombiesPipeless.setTask (h : ZombiesPipeless k) {i : Slot} {t : Task}
    (ht : t.zombie = true → NoPipes t) : ZombiesPipeless (k.setTask i t) :=
  forall_setTask (Q := fun _ t => t.zombie = true → NoPipes t) ht fun j _ => h j

theorem ZombiesPipeless.change (h : ZombiesPipeless k) (hc : Change endsWithoutPipes k k') :
    ZombiesPipeless k' := by
  intro i hz
  have hz₀ : (k.tasks i).zombie = true := (hc.drift.tasks i).zombie.symm.trans hz
  refine hc.noPipes (h i hz₀) (fun hP hi => ?_) fun _ => hz₀
  subst hi
  exact Bool.noConfusion (Eq.trans (Eq.symm hP) hz₀)

theorem ZombiesPipeless.schedYield (h : ZombiesPipeless k) : ZombiesPipeless (schedYield k) := by
  intro i hz
  refine noPipes_of_fds (schedYield_fds i) (h i ?_)
  obtain ⟨u, hu⟩ := @schedYield_tasks k i
  rw [hu] at hz
  exact hz

theorem ZombiesPipeless.fdsRelease {i : Slot} (h : ∀ j, j ≠ i → (k.tasks j).zombie = true →
    NoPipes (k.tasks j)) : ZombiesPipeless (fdsRelease k i) := by
  intro j hz
  have hd : Drift True k (Sys.fdsRelease k i) := fdsRelease_drift i
  by_cases hj : j = i
  · rw [hj]
    exact fdsRelease_noPipes i
  · exact noPipes_of_fds (fdsRelease_fds_of_ne hj) (h j hj ((hd.tasks j).zombie.symm.trans hz))

/-- The zombies after the end of a task are the task and those before. -/
theorem markZombie_others {i j : Slot} (status : Int) (hj : j ≠ i)
    (hz : ((markZombie k i status).tasks j).zombie = true) : (k.tasks j).zombie = true := by
  have hd : Drift True (slay k i status) (markZombie k i status) := markZombie_drift i status
  rw [(hd.tasks j).zombie, slay_of_ne status hj] at hz
  exact hz

theorem ZombiesPipeless.turn (h : ZombiesPipeless k) (ht : Turn endsWithoutPipes k k') :
    ZombiesPipeless k' := by
  cases ht with
  | goto c r b => exact h.setTask (h k.current)
  | readPark p n => exact h.setTask (h k.current)
  | writePark p data done => exact h.setTask (h k.current)
  | spawn _ i t _ ht => exact h.setTask fun _ => ht.noPipes
  | yield => exact h.schedYield
  | block f _ hf =>
    have hset : ZombiesPipeless (k.modCur f) := by
      refine h.setTask fun hz => noPipes_of_fds (blocks_fds hf _).1 (h k.current ?_)
      cases hf <;> exact hz
    exact hset.schedYield
  | die status _ hP =>
    intro i hz
    refine noPipes_of_fds (markZombie_fds _ status i) ?_
    by_cases hi : i = k.current
    · rw [hi]
      exact hP
    · exact h i (markZombie_others status hi hz)
  | terminate status =>
    refine ZombiesPipeless.fdsRelease fun j hj hz => ?_
    exact noPipes_of_fds (markZombie_fds _ status j) (h j (markZombie_others status hj hz))
  | kill i _ _ _ hP =>
    intro j hz
    have hfds : ((k.modTask i fun t => t.addSig sigKill).tasks j).fds = (k.tasks j).fds :=
      modTask_fds (fun _ => by rfl) j
    refine noPipes_of_fds ((killParked_fds i j).trans hfds) ?_
    by_cases hj : j = i
    · rw [hj]
      exact hP
    · have hd : Drift True _ (killParked (k.modTask i fun t => t.addSig sigKill) i) :=
        killParked_drift_markZombie i
      rw [(hd.tasks j).zombie] at hz
      have hz' := markZombie_others _ hj hz
      simp only [Kernel.modTask, Kernel.setTask, Function.update_of_ne hj] at hz'
      exact h j hz'
  | reap _ i =>
    exact (ZombiesPipeless.fdsRelease fun j _ => h j).setTask fun hz => Bool.noConfusion hz

theorem ZombiesPipeless.move (h : ZombiesPipeless k) (hm : Move endsWithoutPipes k k') :
    ZombiesPipeless k' := by
  cases hm with
  | change hc => exact h.change hc
  | turn ht => exact h.turn ht

/-- No live task holds an end of the pipe on the given side. -/
def DeadSide (k : Kernel) (p : Nat) (side : File → Bool) : Prop :=
  ∀ i fd, ((k.tasks i).fds fd).pipe = some p → side ((k.tasks i).fds fd) = true →
    (k.tasks i).zombie = true

/-- A side whose holders are all dead has no ends left. -/
theorem DeadSide.ends {p : Nat} {side : File → Bool} (hd : DeadSide k p side)
    (h : ZombiesPipeless k) : ends (fun f => if side f then 1 else 0) p (files k) = 0 := by
  refine tally_eq_zero fun i => tally_eq_zero fun fd => ?_
  change held _ p ((k.tasks i).fds fd) = 0
  unfold held
  split
  next hp =>
    refine if_neg fun hs => ?_
    have hnone := h i (hd i fd hp hs) fd
    rw [hp] at hnone
    cases hnone
  next => rfl

/-- The read of an empty pipe without writers returns the end of the file. -/
theorem readPass_eof {p : Nat} {q : Pipe} (hq : k.pipes p = some q) (hlen : q.len = 0)
    (hw : q.writers = 0) (n : Nat) : readPass k p n = some (k.finish 0) := by
  unfold readPass pipeReadStep
  simp only [hq, hlen, hw, lt_irrefl, if_false, if_true]

/-- The write to a pipe without readers fails. -/
theorem writePass_epipe {p : Nat} {q : Pipe} (hq : k.pipes p = some q) (hr : q.readers = 0)
    {data : List UInt8} {done : Nat} (hdata : data.drop done ≠ []) :
    writePass k p data done = some (k.finish (-1)) := by
  unfold writePass pipeWriteStep
  simp only [hq, hr, hdata, if_false, if_true]

/-- The event does not end a task that holds a pipe otherwise than by a fatal
signal of its own, and is not a call of `sys_pipe` by a zombie. -/
def EndsWithoutPipes (k : Kernel) (e : Event) : Prop :=
  (exits k e = true → NoPipes k.cur) ∧ (∀ i ∈ killTarget k e, NoPipes (k.tasks i)) ∧
    (makesPipe k e = true → k.cur.zombie = false)

instance (k : Kernel) (e : Event) : Decidable (EndsWithoutPipes k e) :=
  inferInstanceAs (Decidable (_ ∧ _ ∧ _))

theorem EndsWithoutPipes.allowed {e : Event} (h : EndsWithoutPipes k e) :
    Allowed endsWithoutPipes k e :=
  { allowed_any k e with exit := h.1, kill := h.2.1, pipe := h.2.2 }

/-- If no task that holds a pipe ends by `sys_exit`, a fault or a `SIGKILL` from
outside, the dead hold no pipes. A read of an empty pipe whose writers are all
dead then returns zero and a write to a pipe whose readers are all dead fails,
and no live task is parked there. -/
theorem dead_hold_no_pipes {vm : Vm} {init rudod : Option FileData} {k₀ : Kernel}
    {es : List Event} (hboot : boot vm init rudod = some k₀)
    (hcond : Run.Along step EndsWithoutPipes k₀ es) (hrun : Run.run step k₀ es = some k) :
    (∀ i, (k.tasks i).zombie = true → NoPipes (k.tasks i)) ∧
    (∀ p q, k.pipes p = some q → DeadSide k p File.isWr →
      (∀ n, q.len = 0 → readPass k p n = some (k.finish 0)) ∧
      ∀ i n, Waits (k.tasks i) → (k.tasks i).cont ≠ .readWoken p n) ∧
    (∀ p q, k.pipes p = some q → DeadSide k p File.isRd →
      (∀ data done, data.drop done ≠ [] → writePass k p data done = some (k.finish (-1))) ∧
      ∀ i data done, Waits (k.tasks i) → (k.tasks i).cont ≠ .writeWoken p data done) := by
  have hstart := boot_started hboot
  have hnone : ZombiesPipeless k₀ := fun i _ => hstart.noPipes i
  obtain ⟨-, hv, hz⟩ := run_invariant (Q := fun k => Vigilant k ∧ ZombiesPipeless k)
    (fun _ _ => EndsWithoutPipes.allowed) (fun _ _ hs h hm => ⟨h.1.move hs hm, h.2.move hm⟩)
    hstart.sane ⟨hstart.vigilant, hnone⟩ hcond hrun
  refine ⟨hz, fun p q hq hdead => ?_, fun p q hq hdead => ?_⟩
  · have hw : q.writers = 0 := (hv.pipesOk.counted.counts hq).2.trans (hdead.ends hz)
    refine ⟨fun n hlen => readPass_eof hq hlen hw n, fun i n hwait hc => ?_⟩
    have hidle := hv.parked.idle i hwait
    rw [hc] at hidle
    obtain ⟨q', hq', -, hpos⟩ := hidle p rfl
    rw [Option.some.inj (hq'.symm.trans hq), hw] at hpos
    exact lt_irrefl _ hpos
  · have hr : q.readers = 0 := (hv.pipesOk.counted.counts hq).1.trans (hdead.ends hz)
    refine ⟨fun data done hdata => writePass_epipe hq hr hdata, fun i data done hwait hc => ?_⟩
    have hidle := hv.parked.idle i hwait
    rw [hc] at hidle
    obtain ⟨q', hq', -, hpos⟩ := hidle p rfl
    rw [Option.some.inj (hq'.symm.trans hq), hr] at hpos
    exact lt_irrefl _ hpos

/-- The first process makes a pipe, closes both ends and exits. -/
def closeAndExit : List Event :=
  .resume :: call (.pipe (some 5)) ++ call (.close 3) ++ call (.close 4) ++ call (.exit 0)

theorem dead_hold_no_pipes_closed : ∃ k₀ k, boot smallVm (some smallProgram) none = some k₀ ∧
    Run.run step k₀ closeAndExit = some k ∧ (k.tasks 1).zombie = true ∧
    NoPipes (k.tasks 1) := by
  have hrun : ∃ k₀, boot smallVm (some smallProgram) none = some k₀ ∧
      Run.Along step EndsWithoutPipes k₀ closeAndExit ∧
      ∃ k, Run.run step k₀ closeAndExit = some k ∧ (k.tasks 1).zombie = true := by
    decide +kernel
  obtain ⟨k₀, hboot, hcond, k, hrun, hz⟩ := hrun
  exact ⟨k₀, k, hboot, hrun, hz, (dead_hold_no_pipes hboot hcond hrun).1 1 hz⟩

/-- A process that makes a pipe and exits leaves the CPU as a zombie that still
holds both ends. -/
theorem exit_keeps_pipe_ends : ∃ k₀, boot smallVm (some smallProgram) none = some k₀ ∧
    ∃ k, Run.run step k₀ (.resume :: call (.pipe (some 5)) ++ call (.exit 0)) = some k ∧
    k.current ≠ 1 ∧ (k.tasks 1).zombie = true ∧ ((k.tasks 1).fds 3).pipe = some 5 ∧
    ((k.tasks 1).fds 4).pipe = some 5 ∧ ∃ q, k.pipes 5 = some q ∧ q.writers = 1 := by
  decide +kernel

end Mmix.Sys
