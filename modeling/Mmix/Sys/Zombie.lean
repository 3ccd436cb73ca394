import Mmix.Sys.Boot

/-!
# Zombies and the scheduler

A task that has ended keeps its slot until it is reaped. The scheduler looks
at the run state only, so a zombie stays off the CPU as long as it is blocked.
That is the case for a task that ends itself, and for one that is killed while
it is blocked, but not for one that is killed while it is ready.
-/

namespace Mmix.Sys

open Mm Fs Proc Kernel

/-- `SIGKILL` meets its target blocked, and does not overwrite the status of a
task that ended otherwise. -/
def killsBlocked : Policy :=
  { Policy.any with
    kill := fun t => t.state = .blocked ∧ (t.zombie = true → t.exitStatus = -(sigKill.val : Int)) }

/-- The zombies that are off the CPU are blocked. -/
def ZombiesBlocked (k : Kernel) : Prop :=
  ∀ i, i ≠ k.current → (k.tasks i).zombie = true → (k.tasks i).state = .blocked

/-- The slot of a process that has ended: as long as the slot is not reused, it
holds a blocked zombie with the recorded status. -/
structure Buried (i : Slot) (pid status : Int) (k : Kernel) : Prop where
  pid_lt : pid < k.nextPid
  dead : (k.tasks i).state ≠ .free → (k.tasks i).pid = pid →
    i ≠ k.current ∧ (k.tasks i).zombie = true ∧ (k.tasks i).state = .blocked ∧
      (k.tasks i).exitStatus = status

variable {k k' : Kernel}

/-- A zombie does not notice a drift. -/
theorem Mild.of_zombie {t t' : Task} (h : Mild t t') (hz : t.zombie = true) :
    t'.state = t.state := by
  rcases h.state with hs | ⟨hw, -⟩
  · exact hs
  · exact Bool.noConfusion (hw.2.symm.trans hz)

theorem ZombiesBlocked.of_drift (h : ZombiesBlocked k) (hd : Drift True k k') :
    ZombiesBlocked k' := by
  intro i hi hz
  have hz' : (k.tasks i).zombie = true := (hd.tasks i).zombie.symm.trans hz
  rw [(hd.tasks i).of_zombie hz']
  exact h i (by rwa [hd.current] at hi) hz'

theorem Buried.of_drift {i : Slot} {pid status : Int} (h : Buried i pid status k)
    (hd : Drift True k k') : Buried i pid status k' := by
  refine ⟨by rw [hd.nextPid]; exact h.pid_lt, fun hl hp => ?_⟩
  have hm := hd.tasks i
  obtain ⟨hc, hz, hb, hst⟩ := h.dead (fun hf => hl (hm.free_iff.mpr hf)) (hm.pid.symm.trans hp)
  exact ⟨by rwa [hd.current], hm.zombie.trans hz, (hm.of_zombie hz).trans hb,
    hm.exitStatus.trans hst⟩

theorem ZombiesBlocked.setTask (h : ZombiesBlocked k) {i : Slot} {t : Task}
    (ht : i ≠ k.current → t.zombie = true → t.state = .blocked) :
    ZombiesBlocked (k.setTask i t) :=
  forall_setTask (Q := fun i t => i ≠ k.current → t.zombie = true → t.state = .blocked) ht
    fun j _ => h j

theorem Buried.setTask {i j : Slot} {pid status : Int} {t : Task} (h : Buried i pid status k)
    (ht : j = i → t.state ≠ .free → t.pid = pid →
      i ≠ k.current ∧ t.zombie = true ∧ t.state = .blocked ∧ t.exitStatus = status) :
    Buried i pid status (k.setTask j t) := by
  refine ⟨h.pid_lt, forall_setTask (Q := fun j t => j = i → t.state ≠ .free → t.pid = pid →
    i ≠ k.current ∧ t.zombie = true ∧ t.state = .blocked ∧ t.exitStatus = status) ht ?_ i rfl⟩
  rintro j - rfl
  exact h.dead

/-- The current task changes, but keeps its identity. -/
theorem Buried.setCur {i : Slot} {pid status : Int} {t : Task} (h : Buried i pid status k)
    (hs : Sane k) (hpid : t.pid = k.cur.pid) : Buried i pid status (k.setTask k.current t) := by
  refine h.setTask fun hi _ hp => ?_
  subst hi
  exact absurd rfl (h.dead hs.cur_live (hpid.symm.trans hp)).1

theorem ZombiesBlocked.schedYield (h : ZombiesBlocked k) (hrun : (k.tasks 0).Runnable)
    (hcur : k.cur.state = .running ∨ k.cur.state = .blocked) :
    ZombiesBlocked (schedYield k) := by
  intro i hi hz
  obtain ⟨u, hu⟩ := @schedYield_tasks k i
  rw [schedYield_current] at hi
  rw [hu] at hz ⊢
  rcases yieldState_cases (pickNext_runnable hrun) i with ⟨he, -⟩ | ⟨-, -, -, he⟩ | ⟨he, -, hc⟩
  · exact absurd he hi
  · rw [show (k.tasks i).zombie = true from hz] at he
    exact he
  · refine he.trans ?_
    by_cases hic : i = k.current
    · subst hic
      exact hcur.resolve_left fun hr => hi (hc rfl hr)
    · exact h i hic hz

/-- A blocked task is not chosen. -/
theorem Buried.schedYield {i : Slot} {pid status : Int} (h : Buried i pid status k)
    (hrun : (k.tasks 0).Runnable) : Buried i pid status (schedYield k) := by
  refine ⟨by rw [schedYield_nextPid]; exact h.pid_lt, fun hl => ?_⟩
  have hlive : (k.tasks i).state ≠ .free :=
    fun hf => hl ((schedYield_free_iff hrun i).mpr hf)
  have hpick := pickNext_runnable hrun
  obtain ⟨u, hu⟩ := @schedYield_tasks k i
  rw [schedYield_current, hu]
  intro hp
  obtain ⟨hc, hz, hb, hst⟩ := h.dead hlive hp
  have hne : i ≠ pickNext k := by
    rintro rfl
    rcases hpick with hr | hr <;> exact absurd (hb.symm.trans hr) (by decide)
  refine ⟨hne, hz, ?_, hst⟩
  rcases yieldState_cases hpick i with ⟨he, -⟩ | ⟨-, he, -⟩ | ⟨he, -⟩
  · exact absurd he hne
  · exact absurd he hc
  · exact he.trans hb

theorem ZombiesBlocked.turn (h : ZombiesBlocked k) (hs : Sane k) (ht : Turn killsBlocked k k') :
    ZombiesBlocked k' := by
  have cur (t : Task) : ZombiesBlocked (k.setTask k.current t) :=
    h.setTask fun hne => absurd rfl hne
  cases ht with
  | goto c r b => exact cur _
  | readPark p n => exact cur _
  | writePark p data done => exact cur _
  | spawn _ i t _ ht =>
    exact h.setTask fun _ hz => Bool.noConfusion (ht.zombie.symm.trans hz)
  | yield => exact h.schedYield hs.idle_runnable (Or.inl hs.running)
  | block f h0 hf =>
    obtain ⟨htable, hb, -⟩ := hs.block h0 hf
    exact (cur (f k.cur)).schedYield htable.idle_runnable (Or.inr hb)
  | die status => exact (cur _).of_drift (markZombie_drift _ _)
  | terminate status =>
    exact (cur _).of_drift ((markZombie_drift _ _).trans (fdsRelease_drift _))
  | kill i h0 hi hlive hP =>
    have hsig : ZombiesBlocked (k.modTask i fun t => t.addSig sigKill) :=
      h.setTask fun hne hz => h i hne hz
    have hslay : ZombiesBlocked (slay (k.modTask i fun t => t.addSig sigKill) i
        (-(sigKill.val : Int))) := by
      refine hsig.setTask fun _ _ => ?_
      simp only [Kernel.modTask, Kernel.setTask, Function.update_self]
      exact hP.1
    exact hslay.of_drift (killParked_drift i)
  | reap _ i =>
    exact (h.of_drift (fdsRelease_drift i)).setTask fun _ hz =>
      Bool.noConfusion hz

theorem Buried.turn {i : Slot} {pid status : Int} (h : Buried i pid status k) (hs : Sane k)
    (ht : Turn killsBlocked k k') : Buried i pid status k' := by
  cases ht with
  | goto c r b =>
    have hset : Buried i pid status (k.setTask k.current { k.cur with cont := c, rax := r }) :=
      h.setCur hs rfl
    exact ⟨hset.pid_lt, hset.dead⟩
  | readPark p n => exact h.setCur hs rfl
  | writePark p data done => exact h.setCur hs rfl
  | spawn _ j t _ ht =>
    have hset : Buried i pid status (k.setTask j t) :=
      h.setTask fun _ _ hp => absurd (hp.symm.trans ht.pid) (ne_of_lt h.pid_lt)
    exact ⟨lt_trans hset.pid_lt (Int.lt_succ _), hset.dead⟩
  | yield => exact h.schedYield hs.idle_runnable
  | block f h0 hf =>
    have hset : Buried i pid status (k.modCur f) := h.setCur hs (by cases hf <;> rfl)
    exact hset.schedYield (hs.block h0 hf).1.idle_runnable
  | die status' =>
    have hslay : Buried i pid status (slay k k.current status') := h.setCur hs rfl
    exact hslay.of_drift (markZombie_drift _ _)
  | terminate status' =>
    have hslay : Buried i pid status (slay k k.current status') := h.setCur hs rfl
    exact hslay.of_drift ((markZombie_drift _ _).trans (fdsRelease_drift _))
  | kill j h0 hj hlive hP =>
    have hsig : Buried i pid status (k.modTask j fun t => t.addSig sigKill) := by
      refine h.setTask fun hji => ?_
      subst hji
      exact h.dead
    have hslay : Buried i pid status (slay (k.modTask j fun t => t.addSig sigKill) j
        (-(sigKill.val : Int))) := by
      refine hsig.setTask fun hji hl hp => ?_
      subst hji
      simp only [Kernel.modTask, Kernel.setTask, Function.update_self] at hl hp ⊢
      obtain ⟨hc, hz, hb, hst⟩ := h.dead hl hp
      exact ⟨hc, trivial, hb, (hP.2 hz).symm.trans hst⟩
    exact hslay.of_drift (killParked_drift j)
  | reap _ j =>
    exact (h.of_drift (fdsRelease_drift j)).setTask fun _ hl => absurd rfl hl

theorem ZombiesBlocked.move (h : ZombiesBlocked k) (hs : Sane k) (hm : Move killsBlocked k k') :
    ZombiesBlocked k' := by
  cases hm with
  | change hc => exact h.of_drift hc.drift
  | turn ht => exact h.turn hs ht

theorem Buried.move {i : Slot} {pid status : Int} (h : Buried i pid status k) (hs : Sane k)
    (hm : Move killsBlocked k k') : Buried i pid status k' := by
  cases hm with
  | change hc => exact h.of_drift hc.drift
  | turn ht => exact h.turn hs ht

/-- The event does not send `SIGKILL` to another task, or the task is blocked
and was not ended before in another way. -/
def KillsBlocked (k : Kernel) (e : Event) : Prop :=
  ∀ i ∈ killTarget k e, (k.tasks i).state = .blocked ∧
    ((k.tasks i).zombie = true → (k.tasks i).exitStatus = -(sigKill.val : Int))

instance (k : Kernel) (e : Event) : Decidable (KillsBlocked k e) :=
  inferInstanceAs (Decidable (∀ i ∈ killTarget k e, _))

theorem KillsBlocked.allowed {e : Event} (h : KillsBlocked k e) : Allowed killsBlocked k e :=
  { allowed_any k e with kill := h }

/-- When only blocked tasks are killed, a zombie that has left the CPU never
gets it back: until the slot is reaped it stays blocked, with the status that
was recorded. -/
theorem zombie_stays_off_cpu {vm : Vm} {init rudod : Option FileData} {k₀ : Kernel}
    {es es' : List Event} (hboot : boot vm init rudod = some k₀)
    (hcond : Run.Along step KillsBlocked k₀ es) (hrun : Run.run step k₀ es = some k)
    (hcond' : Run.Along step KillsBlocked k es') (hrun' : Run.run step k es' = some k')
    {i : Slot} (hi : i ≠ k.current) (hz : (k.tasks i).zombie = true)
    (hl : (k'.tasks i).state ≠ .free) (hp : (k'.tasks i).pid = (k.tasks i).pid) :
    i ≠ k'.current ∧ (k'.tasks i).zombie = true ∧ (k'.tasks i).state = .blocked ∧
      (k'.tasks i).exitStatus = (k.tasks i).exitStatus := by
  have hstart := boot_started hboot
  have hnone : ZombiesBlocked k₀ := fun j _ hz =>
    Bool.noConfusion ((hstart.zombie j).symm.trans hz)
  obtain ⟨hs, hblocked⟩ := run_invariant (fun _ _ => KillsBlocked.allowed)
    (fun _ _ hs h hm => ZombiesBlocked.move h hs hm) hstart.sane hnone hcond hrun
  have hb := hblocked i hi hz
  have hlive : (k.tasks i).state ≠ .free := fun hf => absurd (hb.symm.trans hf) (by decide)
  have hburied : Buried i (k.tasks i).pid (k.tasks i).exitStatus k :=
    ⟨hs.pid_lt i hlive, fun _ _ => ⟨hi, hz, hb, rfl⟩⟩
  exact (run_invariant (fun _ _ => KillsBlocked.allowed) (fun _ _ hs h hm => Buried.move h hs hm)
    hs hburied hcond' hrun').2.dead hl hp

/-- The second process gives up the CPU; the idle task waits for the timer and
then gives the first process its turn. -/
def firstTurn : List Event := call .yield ++ [.resume, .resume, .tick, .resume]

/-- The second process kills the first one, which waits for a child. -/
def killWaiting : List Event :=
  .resume :: firstTurn ++ .resume :: call (.waitpid (-1)) ++ .resume :: call (.kill 1 17)

theorem zombie_stays_off_cpu_killed_waiting : ∃ k₀ k k',
    boot smallVm (some smallProgram) (some smallProgram) = some k₀ ∧
    Run.run step k₀ killWaiting = some k ∧ Run.run step k (firstTurn.take 6) = some k' ∧
    (k.tasks 1).zombie = true ∧ 1 ≠ k'.current ∧
    (k'.tasks 1).exitStatus = (k.tasks 1).exitStatus := by
  have hrun : ∃ k₀, boot smallVm (some smallProgram) (some smallProgram) = some k₀ ∧
      Run.Along step KillsBlocked k₀ killWaiting ∧
      ∃ k, Run.run step k₀ killWaiting = some k ∧
      Run.Along step KillsBlocked k (firstTurn.take 6) ∧
      ∃ k', Run.run step k (firstTurn.take 6) = some k' ∧
      1 ≠ k.current ∧ (k.tasks 1).zombie = true ∧
      (k'.tasks 1).state ≠ .free ∧ (k'.tasks 1).pid = (k.tasks 1).pid := by
    decide +kernel
  obtain ⟨k₀, hboot, hcond, k, hrun, hcond', k', hrun', hi, hz, hl, hp⟩ := hrun
  obtain ⟨hoff, -, -, hst⟩ := zombie_stays_off_cpu hboot hcond hrun hcond' hrun' hi hz hl hp
  exact ⟨k₀, k, k', hboot, hrun, hrun', hz, hoff, hst⟩

/-- A task that is killed while it is ready runs again: the first process is
killed before it had the CPU, and gets it at its turn. -/
theorem killed_ready_task_runs : ∃ k₀,
    boot smallVm (some smallProgram) (some smallProgram) = some k₀ ∧
    ∃ k, Run.run step k₀ (.resume :: call (.kill 1 17)) = some k ∧
    1 ≠ k.current ∧ (k.tasks 1).zombie = true ∧
    ∃ k', Run.run step k firstTurn = some k' ∧ k'.current = 1 ∧
    (k'.tasks 1).pid = (k.tasks 1).pid ∧ (k'.tasks 1).zombie = true := by
  decide +kernel

end Mmix.Sys
