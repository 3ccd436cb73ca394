import Mmix.Sys.Move

/-!
# The task table

The run states and process identifiers of a machine at work: exactly the
current task is running, the idle task is always runnable and never leaves its
loop, and identifiers are unique and below the counter.
-/

namespace Mmix.Sys

open Mm Fs Proc Kernel Function

section Yield

variable {k : Kernel}

theorem exists_slotAfter (start i : Slot) : ∃ n ∈ List.range' 1 64, slotAfter start n = i := by
  refine ⟨if start.val < i.val then i.val - start.val else 64 + i.val - start.val, ?_, ?_⟩
  · rw [List.mem_range'_1]
    split <;> omega
  · apply Fin.ext
    simp only [slotAfter]
    split <;> omega

theorem pickNext_runnable {i : Slot} (h : (k.tasks i).Runnable) :
    (k.tasks (pickNext k)).Runnable := by
  unfold pickNext
  split
  next hnone =>
    obtain ⟨n, hn, rfl⟩ := exists_slotAfter k.current i
    have := List.find?_eq_none.mp hnone n hn
    simp only [decide_eq_true_eq] at this
    exact absurd h this
  next n hsome =>
    have := List.find?_some hsome
    exact of_decide_eq_true this

/-- The run state of a slot after `sched_yield`. -/
def yieldState (k : Kernel) (i : Slot) : TaskState :=
  if pickNext k = k.current then (k.tasks i).state
  else if i = pickNext k then .running
  else if i = k.current ∧ (k.tasks i).state = .running then
    if (k.tasks i).zombie then .blocked else .ready
  else (k.tasks i).state

theorem schedYield_current : (schedYield k).current = pickNext k := by
  unfold schedYield
  dsimp only
  split
  next h => exact h.symm
  next => rfl

theorem schedYield_pipes : (schedYield k).pipes = k.pipes := by
  unfold schedYield
  dsimp only
  split <;> rfl

theorem schedYield_nextPid : (schedYield k).nextPid = k.nextPid := by
  unfold schedYield
  dsimp only
  split <;> rfl

/-- Everything of the virtual memory but the table in use is kept. -/
theorem schedYield_vm : ∃ cr3, (schedYield k).vm = { k.vm with cr3 := cr3 } := by
  unfold schedYield
  dsimp only
  split
  · exact ⟨k.vm.cr3, rfl⟩
  · exact ⟨_, rfl⟩

/-- Only the run state and the saved user context change. -/
theorem schedYield_tasks (i : Slot) :
    ∃ u, (schedYield k).tasks i = { k.tasks i with state := yieldState k i, uctx := u } := by
  unfold schedYield yieldState
  dsimp only
  by_cases hnext : pickNext k = k.current
  · simp only [if_pos hnext]
    exact ⟨_, rfl⟩
  · simp only [if_neg hnext, switchTo, Kernel.modCur, Kernel.modTask, Kernel.setTask]
    by_cases hi : i = k.current
    · subst hi
      have hne : k.current ≠ pickNext k := fun h => hnext h.symm
      simp only [update_self, update_of_ne hne, if_neg hne]
      refine ⟨k.cpu, ?_⟩
      by_cases hrun : (k.tasks k.current).state = .running
      · simp only [hrun, if_true, and_self]
      · simp only [hrun, and_false, if_false]
    · rw [update_of_ne hi]
      by_cases hn : i = pickNext k
      · subst hn
        rw [update_self, update_of_ne hi, if_pos rfl]
        exact ⟨_, rfl⟩
      · rw [update_of_ne hn, update_of_ne hi, if_neg hn,
          if_neg fun h => hi h.1]
        exact ⟨_, rfl⟩

/-- What `sched_yield` does to the state of a slot: the task that gets the CPU
runs, the one that held it becomes ready or, as a zombie, blocked. -/
theorem yieldState_cases (hrun : (k.tasks (pickNext k)).Runnable) (i : Slot) :
    (i = pickNext k ∧ i ≠ k.current ∧ (k.tasks i).Runnable ∧ yieldState k i = .running) ∨
    (i ≠ pickNext k ∧ i = k.current ∧ (k.tasks i).state = .running ∧
      yieldState k i = if (k.tasks i).zombie then .blocked else .ready) ∨
    (yieldState k i = (k.tasks i).state ∧ (i = pickNext k → i = k.current) ∧
      (i = k.current → (k.tasks i).state = .running → i = pickNext k)) := by
  unfold yieldState
  by_cases hnext : pickNext k = k.current
  · rw [if_pos hnext, hnext]
    exact Or.inr (Or.inr ⟨rfl, id, fun h _ => h⟩)
  · rw [if_neg hnext]
    by_cases hi : i = pickNext k
    · subst hi
      rw [if_pos rfl]
      exact Or.inl ⟨rfl, hnext, hrun, rfl⟩
    · rw [if_neg hi]
      by_cases hc : i = k.current ∧ (k.tasks i).state = .running
      · rw [if_pos hc]
        exact Or.inr (Or.inl ⟨hi, hc.1, hc.2, rfl⟩)
      · rw [if_neg hc]
        exact Or.inr (Or.inr ⟨rfl, fun h => absurd h hi, fun h h' => absurd ⟨h, h'⟩ hc⟩)

/-- `sched_yield` takes and frees no slot. -/
theorem schedYield_free_iff (hrun : (k.tasks 0).Runnable) (i : Slot) :
    ((schedYield k).tasks i).state = .free ↔ (k.tasks i).state = .free := by
  obtain ⟨u, hu⟩ := @schedYield_tasks k i
  have hstate : ((schedYield k).tasks i).state = yieldState k i := by rw [hu]
  rw [hstate]
  rcases yieldState_cases (pickNext_runnable hrun) i with ⟨-, -, hr, he⟩ | ⟨-, -, hr, he⟩ | ⟨he, -⟩
  · rw [he]
    rcases hr with hr | hr
    · rw [hr]
      decide
    · rw [hr]
  · rw [he, hr]
    split <;> decide
  · rw [he]

end Yield

/-- The facts about the task table that hold also while a task is leaving the
CPU. -/
structure Table (k : Kernel) : Prop where
  others : ∀ i, i ≠ k.current → (k.tasks i).state ≠ .running
  idle_runnable : (k.tasks 0).Runnable
  idle_zombie : (k.tasks 0).zombie = false
  idle_pid : (k.tasks 0).pid = 0
  idle_cont : Idles (k.tasks 0).cont
  pid_pos : ∀ i, i ≠ 0 → (k.tasks i).state ≠ .free → 0 < (k.tasks i).pid
  pid_lt : ∀ i, (k.tasks i).state ≠ .free → (k.tasks i).pid < k.nextPid
  parent_lt : ∀ i, i ≠ 0 → (k.tasks i).state ≠ .free →
    (k.tasks i).parentPid < (k.tasks i).pid
  pid_inj : ∀ i j, (k.tasks i).state ≠ .free → (k.tasks j).state ≠ .free →
    (k.tasks i).pid = (k.tasks j).pid → i = j
  parks : ∀ i, i ≠ k.current → Parks (k.tasks i).cont = false

/-- The task table of a machine at work. -/
structure Sane (k : Kernel) : Prop extends Table k where
  running : k.cur.state = .running

section Preserved

variable {k k' : Kernel}

theorem Table.idle_live (h : Table k) : (k.tasks 0).state ≠ .free := by
  rcases h.idle_runnable with hs | hs <;> rw [hs] <;> exact fun h => TaskState.noConfusion h

theorem Sane.cur_live (h : Sane k) : k.cur.state ≠ .free := by
  rw [h.running]
  exact fun h => TaskState.noConfusion h

/-- The current task is not the idle task unless it is in the idle loop. -/
theorem Table.current_ne_zero (h : Table k) (hc : ¬ Idles k.cur.cont) : k.current ≠ 0 := by
  intro h0
  apply hc
  unfold Kernel.cur
  rw [h0]
  exact h.idle_cont

theorem schedFindPid_some {pid : Int} {i : Slot} (h : schedFindPid k pid = some i) :
    (k.tasks i).state ≠ .free ∧ (k.tasks i).pid = pid := by
  unfold schedFindPid at h
  have := List.find?_some h
  exact of_decide_eq_true this

/-- `sched_find_pid` finds every live task by its identifier. -/
theorem Table.schedFindPid_eq (h : Table k) {i : Slot} (hi : (k.tasks i).state ≠ .free) :
    schedFindPid k (k.tasks i).pid = some i := by
  cases hfind : schedFindPid k (k.tasks i).pid with
  | none =>
    unfold schedFindPid at hfind
    have := List.find?_eq_none.mp hfind i (List.mem_finRange i)
    exact absurd (decide_eq_true ⟨hi, rfl⟩) this
  | some j =>
    obtain ⟨hj, he⟩ := schedFindPid_some hfind
    rw [h.pid_inj j i hj hi he]

theorem Sane.of_drift {mem : Prop} (h : Sane k) (hd : Drift mem k k') : Sane k' := by
  have live {i : Slot} (hi : (k'.tasks i).state ≠ .free) : (k.tasks i).state ≠ .free :=
    fun hf => hi ((hd.tasks i).free_iff.mpr hf)
  refine ⟨⟨?_, ?_, ?_, ?_, ?_, ?_, ?_, ?_, ?_, ?_⟩, ?_⟩
  · intro i hi hrun
    exact h.others i (by rwa [hd.current] at hi) ((hd.tasks i).running_iff.mp hrun)
  · rcases (hd.tasks 0).state with hs | ⟨hw, hr⟩
    · unfold Task.Runnable
      rw [hs]
      exact h.idle_runnable
    · exact Or.inl hr
  · exact (hd.tasks 0).zombie.trans h.idle_zombie
  · exact (hd.tasks 0).pid.trans h.idle_pid
  · rw [(hd.tasks 0).cont]
    exact h.idle_cont
  · intro i hi hl
    rw [(hd.tasks i).pid]
    exact h.pid_pos i hi (live hl)
  · intro i hl
    rw [(hd.tasks i).pid, hd.nextPid]
    exact h.pid_lt i (live hl)
  · intro i hi hl
    rw [(hd.tasks i).pid, (hd.tasks i).parentPid]
    exact h.parent_lt i hi (live hl)
  · intro i j hi hj he
    rw [(hd.tasks i).pid, (hd.tasks j).pid] at he
    exact h.pid_inj i j (live hi) (live hj) he
  · intro i hi
    rw [(hd.tasks i).cont]
    exact h.parks i (by rwa [hd.current] at hi)
  · exact hd.cur.running_iff.mpr h.running

/-- A property of all slots after one of them was replaced. -/
theorem forall_setTask {Q : Slot → Task → Prop} {i : Slot} {t : Task} (hi : Q i t)
    (h : ∀ j, j ≠ i → Q j (k.tasks j)) (j : Slot) : Q j ((k.setTask i t).tasks j) := by
  by_cases hj : j = i
  · subst hj
    simp only [Kernel.setTask, update_self]
    exact hi
  · simp only [Kernel.setTask, update_of_ne hj]
    exact h j hj

/-- Replacing a task by one with the same identity, or by a free slot. -/
theorem Table.setTask (h : Table k) {i : Slot} {t : Task}
    (hsame : t.state ≠ .free → (k.tasks i).state ≠ .free ∧ t.pid = (k.tasks i).pid ∧
      t.parentPid = (k.tasks i).parentPid)
    (hidle : i = 0 → t.Runnable ∧ t.zombie = false ∧ t.pid = 0 ∧ Idles t.cont)
    (hother : i ≠ k.current → t.state ≠ .running ∧ Parks t.cont = false) :
    Table (k.setTask i t) := by
  have hzero : ((k.setTask i t).tasks 0).Runnable ∧ ((k.setTask i t).tasks 0).zombie = false ∧
      ((k.setTask i t).tasks 0).pid = 0 ∧ Idles ((k.setTask i t).tasks 0).cont :=
    forall_setTask (Q := fun j t => j = 0 → t.Runnable ∧ t.zombie = false ∧ t.pid = 0 ∧ Idles t.cont)
      hidle (fun j _ hj => hj ▸ ⟨h.idle_runnable, h.idle_zombie, h.idle_pid, h.idle_cont⟩) 0 rfl
  -- A slot in use was in use before, by the same process.
  have hlive (j : Slot) : ((k.setTask i t).tasks j).state ≠ .free →
      (k.tasks j).state ≠ .free ∧ ((k.setTask i t).tasks j).pid = (k.tasks j).pid ∧
      ((k.setTask i t).tasks j).parentPid = (k.tasks j).parentPid :=
    forall_setTask (Q := fun j t => t.state ≠ .free → (k.tasks j).state ≠ .free ∧
      t.pid = (k.tasks j).pid ∧ t.parentPid = (k.tasks j).parentPid)
      hsame (fun j _ hj => ⟨hj, rfl, rfl⟩) j
  have hoff (j : Slot) : j ≠ k.current → ((k.setTask i t).tasks j).state ≠ .running ∧
      Parks ((k.setTask i t).tasks j).cont = false :=
    forall_setTask (Q := fun j t => j ≠ k.current → t.state ≠ .running ∧ Parks t.cont = false)
      hother (fun j _ hj => ⟨h.others j hj, h.parks j hj⟩) j
  refine ⟨fun j hj => (hoff j hj).1, hzero.1, hzero.2.1, hzero.2.2.1, hzero.2.2.2, ?_, ?_, ?_, ?_,
    fun j hj => (hoff j hj).2⟩
  · intro j hj hl
    rw [(hlive j hl).2.1]
    exact h.pid_pos j hj (hlive j hl).1
  · intro j hl
    rw [(hlive j hl).2.1]
    exact h.pid_lt j (hlive j hl).1
  · intro j hj hl
    rw [(hlive j hl).2.1, (hlive j hl).2.2]
    exact h.parent_lt j hj (hlive j hl).1
  · intro j j' hl hl' he
    rw [(hlive j hl).2.1, (hlive j' hl').2.1] at he
    exact h.pid_inj j j' (hlive j hl).1 (hlive j' hl').1 he

/-- A new task takes the next identifier. -/
theorem Table.spawn (h : Table k) {i : Slot} {t : Task} (hfree : (k.tasks i).state = .free)
    (ht : Fresh k t) : Table { k.setTask i t with nextPid := k.nextPid + 1 } := by
  have hi0 : i ≠ 0 := fun h0 => h.idle_live (h0 ▸ hfree)
  have hnext : 0 < k.nextPid := by
    have := h.pid_lt 0 h.idle_live
    rwa [h.idle_pid] at this
  have hzero : (k.setTask i t).tasks 0 = k.tasks 0 := update_of_ne hi0.symm ..
  have hold (j : Slot) : ((k.setTask i t).tasks j).state ≠ .free →
      (j = i ∧ (k.setTask i t).tasks j = t) ∨
        (j ≠ i ∧ (k.tasks j).state ≠ .free ∧ (k.setTask i t).tasks j = k.tasks j) := by
    intro hl
    by_cases hj : j = i
    · exact Or.inl ⟨hj, hj ▸ update_self ..⟩
    · have he : (k.setTask i t).tasks j = k.tasks j := update_of_ne hj ..
      exact Or.inr ⟨hj, he ▸ hl, he⟩
  refine ⟨?_, ?_, ?_, ?_, ?_, ?_, ?_, ?_, ?_, ?_⟩
  · refine forall_setTask (Q := fun j t => j ≠ k.current → t.state ≠ .running) (fun _ => ?_)
      fun j _ => h.others j
    rcases ht.state with hs | hs <;> rw [hs] <;> exact fun h => TaskState.noConfusion h
  · exact hzero ▸ h.idle_runnable
  · exact hzero ▸ h.idle_zombie
  · exact hzero ▸ h.idle_pid
  · exact hzero ▸ h.idle_cont
  · intro j hj hl
    rcases hold j hl with ⟨-, he⟩ | ⟨-, hl', he⟩ <;> simp only [he]
    · rw [ht.pid]
      exact hnext
    · exact h.pid_pos j hj hl'
  · intro j hl
    rcases hold j hl with ⟨-, he⟩ | ⟨-, hl', he⟩ <;> simp only [he]
    · rw [ht.pid]
      exact Int.lt_add_one_of_le (le_refl _)
    · exact Int.lt_add_one_of_le (le_of_lt (h.pid_lt j hl'))
  · intro j hj hl
    rcases hold j hl with ⟨-, he⟩ | ⟨-, hl', he⟩ <;> simp only [he]
    · rw [ht.pid]
      exact ht.parentPid
    · exact h.parent_lt j hj hl'
  · intro j j' hl hl' he
    rcases hold j hl with ⟨hj, ht'⟩ | ⟨-, hlj, ht'⟩ <;>
      rcases hold j' hl' with ⟨hj', ht''⟩ | ⟨-, hlj', ht''⟩ <;>
      simp only [ht', ht''] at he
    · exact hj.trans hj'.symm
    · rw [ht.pid] at he
      exact absurd he (ne_of_gt (h.pid_lt j' hlj'))
    · rw [ht.pid] at he
      exact absurd he (ne_of_lt (h.pid_lt j hlj))
    · exact h.pid_inj j j' hlj hlj' he
  · refine forall_setTask (Q := fun j t => j ≠ k.current → Parks t.cont = false) (fun _ => ?_)
      fun j _ => h.parks j
    rw [ht.cont]
    rfl

/-- `sched_yield` gives the CPU to a task that can run. -/
theorem Table.schedYield (h : Table k) (hcur : k.cur.state = .running ∨ k.cur.state = .blocked)
    (hpark : Parks k.cur.cont = false) : Sane (schedYield k) := by
  have hrun := pickNext_runnable h.idle_runnable
  have hcases := yieldState_cases hrun
  have task (i : Slot) := @schedYield_tasks k i
  have hstate (i : Slot) : ((Proc.schedYield k).tasks i).state = yieldState k i := by
    obtain ⟨u, hu⟩ := task i
    rw [hu]
  have hpid (i : Slot) : ((Proc.schedYield k).tasks i).pid = (k.tasks i).pid := by
    obtain ⟨u, hu⟩ := task i
    rw [hu]
  have hparent (i : Slot) : ((Proc.schedYield k).tasks i).parentPid = (k.tasks i).parentPid := by
    obtain ⟨u, hu⟩ := task i
    rw [hu]
  have hcont (i : Slot) : ((Proc.schedYield k).tasks i).cont = (k.tasks i).cont := by
    obtain ⟨u, hu⟩ := task i
    rw [hu]
  have hzombie (i : Slot) : ((Proc.schedYield k).tasks i).zombie = (k.tasks i).zombie := by
    obtain ⟨u, hu⟩ := task i
    rw [hu]
  have hlive {i : Slot} (hi : ((Proc.schedYield k).tasks i).state ≠ .free) :
      (k.tasks i).state ≠ .free :=
    fun hf => hi ((schedYield_free_iff h.idle_runnable i).mpr hf)
  refine ⟨⟨?_, ?_, ?_, ?_, ?_, ?_, ?_, ?_, ?_, ?_⟩, ?_⟩
  · intro i hi
    rw [schedYield_current] at hi
    rw [hstate i]
    rcases hcases i with ⟨he, -⟩ | ⟨-, -, -, he⟩ | ⟨he, -, hc⟩
    · exact absurd he hi
    · rw [he]
      split <;> exact fun h => TaskState.noConfusion h
    · rw [he]
      by_cases hic : i = k.current
      · exact fun hr => hi (hc hic hr)
      · exact h.others i hic
  · unfold Task.Runnable
    rw [hstate 0]
    rcases hcases 0 with ⟨-, -, -, he⟩ | ⟨-, -, -, he⟩ | ⟨he, -⟩
    · exact Or.inr he
    · rw [he, h.idle_zombie]
      exact Or.inl rfl
    · rw [he]
      exact h.idle_runnable
  · rw [hzombie 0]
    exact h.idle_zombie
  · rw [hpid 0]
    exact h.idle_pid
  · rw [hcont 0]
    exact h.idle_cont
  · intro i hi hl
    rw [hpid i]
    exact h.pid_pos i hi (hlive hl)
  · intro i hl
    rw [hpid i, schedYield_nextPid]
    exact h.pid_lt i (hlive hl)
  · intro i hi hl
    rw [hpid i, hparent i]
    exact h.parent_lt i hi (hlive hl)
  · intro i j hi hj he
    rw [hpid i, hpid j] at he
    exact h.pid_inj i j (hlive hi) (hlive hj) he
  · intro i _
    rw [hcont i]
    by_cases hic : i = k.current
    · rw [hic]
      exact hpark
    · exact h.parks i hic
  · unfold Kernel.cur
    rw [schedYield_current, hstate]
    rcases hcases (pickNext k) with ⟨-, -, -, he⟩ | ⟨hne, -⟩ | ⟨he, hc, -⟩
    · exact he
    · exact absurd rfl hne
    · -- The search came back to the caller, which is then still running.
      have hself := hc rfl
      rw [he]
      rw [hself] at hrun ⊢
      rcases hcur with hs | hs
      · exact hs
      · rcases hrun with hr | hr <;> exact absurd (hs.symm.trans hr) (by decide)

theorem Sane.setTask (h : Sane k) {i : Slot} {t : Task} (ht : Table (k.setTask i t))
    (hrun : i = k.current → t.state = .running) : Sane (k.setTask i t) :=
  ⟨ht, forall_setTask (Q := fun j t => j = k.current → t.state = .running) hrun
    (fun _ _ hj => hj ▸ h.running) k.current rfl⟩

/-- The current task goes on somewhere else. -/
theorem Sane.setCont (h : Sane k) {c : Cont} (r : Int) (hidle : k.current = 0 → Idles c) :
    Sane (k.setTask k.current { k.cur with cont := c, rax := r }) := by
  refine h.setTask (h.toTable.setTask (fun hl => ⟨hl, rfl, rfl⟩) (fun h0 => ?_)
    fun hne => absurd rfl hne) fun _ => h.running
  have hcur : k.cur = k.tasks 0 := congrArg k.tasks h0
  refine ⟨Or.inr h.running, ?_, ?_, hidle h0⟩
  · simp only [hcur, h.idle_zombie]
  · simp only [hcur, h.idle_pid]

/-- The task that ends, before its parent is woken. -/
def slay (k : Kernel) (i : Slot) (status : Int) : Kernel :=
  k.setTask i { k.tasks i with exitStatus := status, zombie := true }

theorem markZombie_drift {mem : Prop} (i : Slot) (status : Int) :
    Drift mem (slay k i status) (markZombie k i status) :=
  wakeParent_drift i

theorem slay_self (i : Slot) (status : Int) :
    (slay k i status).tasks i = { k.tasks i with exitStatus := status, zombie := true } :=
  update_self ..

theorem slay_of_ne {i j : Slot} (status : Int) (hj : j ≠ i) :
    (slay k i status).tasks j = k.tasks j :=
  update_of_ne hj ..

theorem slay_state (i j : Slot) (status : Int) :
    ((slay k i status).tasks j).state = (k.tasks j).state := by
  by_cases hj : j = i
  · rw [hj, slay_self]
  · rw [slay_of_ne status hj]

theorem markZombie_zombie (i : Slot) (status : Int) :
    ((markZombie k i status).tasks i).zombie = true := by
  have hd : Drift False (slay k i status) (markZombie k i status) := markZombie_drift i status
  rw [(hd.tasks i).zombie, slay_self]

/-- After its end is recorded, a killed task only gets its wake-up. -/
theorem killParked_drift_markZombie {mem : Prop} (i : Slot) :
    Drift mem (markZombie k i (-(sigKill.val : Int))) (killParked k i) := by
  unfold killParked
  dsimp only
  split
  next p hp =>
    -- The dead task does not wait any more, whatever pipe it was parked on.
    have hw : ¬ Waits { (markZombie k i (-(sigKill.val : Int))).tasks i with waitPipe := none } :=
      fun hw => Bool.noConfusion ((markZombie_zombie i _).symm.trans hw.2)
    have hd : Drift mem (markZombie k i (-(sigKill.val : Int)))
        ((markZombie k i (-(sigKill.val : Int))).modTask i fun t => { t with waitPipe := none }) :=
      Drift.setTask ⟨rfl, rfl, rfl, rfl, rfl, Or.inl rfl, fun h => absurd h hw,
        fun h => absurd h hw⟩ (Or.inr ⟨rfl, rfl⟩)
    exact hd.trans (pipeWake_drift p)
  next => exact schedWake_drift i

theorem killParked_drift {mem : Prop} (i : Slot) :
    Drift mem (slay k i (-(sigKill.val : Int))) (killParked k i) :=
  (markZombie_drift i _).trans (killParked_drift_markZombie i)

theorem Sane.slay (h : Sane k) {i : Slot} (hi : i ≠ 0) (status : Int) :
    Sane (slay k i status) := by
  refine h.setTask (h.toTable.setTask (fun hl => ⟨hl, rfl, rfl⟩) (fun h0 => absurd h0 hi)
    fun hne => ⟨h.others i hne, h.parks i hne⟩) ?_
  rintro rfl
  exact h.running

theorem Sane.addSig (h : Sane k) {i : Slot} (h0 : i ≠ 0) (hi : i ≠ k.current) (sig : Sig) :
    Sane (k.modTask i fun t => t.addSig sig) :=
  h.setTask (h.toTable.setTask (fun hl => ⟨hl, rfl, rfl⟩) (fun hz => absurd hz h0)
    fun hne => ⟨h.others i hne, h.parks i hne⟩) fun hc => absurd hc hi

/-- A task that blocks leaves the table in order for `sched_yield`. -/
theorem Sane.block (h : Sane k) (h0 : k.current ≠ 0) {f : Task → Task} (hf : Blocks k f) :
    Table (k.modCur f) ∧ (k.modCur f).cur.state = .blocked ∧
      Parks (k.modCur f).cur.cont = false := by
  have hcur : (k.modCur f).cur = f k.cur := update_self ..
  have key : (f k.cur).pid = k.cur.pid ∧ (f k.cur).parentPid = k.cur.parentPid ∧
      (f k.cur).state = .blocked ∧ Parks (f k.cur).cont = false := by
    cases hf with
    | read => exact ⟨rfl, rfl, rfl, rfl⟩
    | write => exact ⟨rfl, rfl, rfl, rfl⟩
    | waitpid => exact ⟨rfl, rfl, rfl, rfl⟩
    | rudo c hc => rcases hc with rfl | rfl <;> exact ⟨rfl, rfl, rfl, rfl⟩
  rw [hcur]
  exact ⟨h.toTable.setTask (fun _ => ⟨h.cur_live, key.1, key.2.1⟩) (fun hz => absurd hz h0)
    fun hne => absurd rfl hne, key.2.2⟩

theorem Sane.turn {P : Policy} (h : Sane k) (ht : Turn P k k') : Sane k' := by
  cases ht with
  | goto c r b hidle hpark =>
    have hd : Drift False (k.setTask k.current { k.cur with cont := c, rax := r })
        { k.modCur fun t => { t with cont := c, rax := r } with intr := b } :=
      Drift.of_tasks (fun _ => Mild.refl _) rfl rfl rfl (Or.inr ⟨rfl, fun _ => rfl, fun _ => rfl⟩)
    exact (h.setCont r hidle).of_drift hd
  | readPark p n q h0 => exact h.setCont k.cur.rax fun hz => absurd hz h0
  | writePark p data done q h0 => exact h.setCont k.cur.rax fun hz => absurd hz h0
  | spawn hP i t hfree ht =>
    have hi : i ≠ k.current := by
      rintro rfl
      exact h.cur_live hfree
    refine ⟨h.toTable.spawn hfree ht, ?_⟩
    exact (congrArg Task.state (update_of_ne hi.symm ..)).trans h.running
  | yield hpark => exact h.toTable.schedYield (Or.inl h.running) hpark
  | block f h0 hf =>
    obtain ⟨ht, hb, hpark⟩ := h.block h0 hf
    exact ht.schedYield (Or.inr hb) hpark
  | die status h0 =>
    have hd : Drift False (Sys.slay k k.current status) (markZombie k k.current status) :=
      markZombie_drift _ _
    exact (h.slay h0 status).of_drift hd
  | terminate status h0 =>
    have hd : Drift False (Sys.slay k k.current status)
        (fdsRelease (markZombie k k.current status) k.current) :=
      (markZombie_drift _ _).trans (fdsRelease_drift _)
    exact (h.slay h0 status).of_drift hd
  | kill i h0 hi =>
    have hd : Drift False (Sys.slay (k.modTask i fun t => t.addSig sigKill) i _)
        (killParked (k.modTask i fun t => t.addSig sigKill) i) := killParked_drift i
    exact ((h.addSig h0 hi sigKill).slay h0 _).of_drift hd
  | reap hP i h0 hi =>
    have hd : Drift False k (fdsRelease k i) := fdsRelease_drift i
    have hi' : i ≠ (fdsRelease k i).current := by rwa [hd.current]
    have hs := h.of_drift hd
    refine hs.setTask (hs.toTable.setTask (fun hl => absurd rfl hl) (fun hz => absurd hz h0)
      fun _ => ⟨fun h => TaskState.noConfusion h, rfl⟩) fun hc => absurd hc hi'

/-- Every move keeps the task table in order. -/
theorem Sane.move {P : Policy} (h : Sane k) (hm : Move P k k') : Sane k' := by
  cases hm with
  | change hc => exact h.of_drift hc.drift
  | turn ht => exact h.turn ht

theorem Sane.moves {P : Policy} (h : Sane k) (hm : Moves P k k') : Sane k' := by
  induction hm with
  | refl => exact h
  | tail _ hmove ih => exact ih.move hmove

end Preserved

end Mmix.Sys
