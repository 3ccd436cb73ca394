import Mmix.Sys.PipeRefs

/-!
# No lost wake-up

A task that is parked in a pipe loop has nothing to do: the pipe is empty and
has a writer, or it is full and has a reader. A task that is parked in
`sys_waitpid` has no matching zombie child. These facts hold in every state,
since whoever changes them wakes the task. Pending signals are different: the
interrupt of Ctrl+C can come between the last check of the loop and the
parking.
-/

namespace Mmix.Sys

open Mm Fs Proc Kernel

/-- The pipe that a task waits for at a point of a pipe loop. -/
def awaited : Cont → Option Nat
  | .readPark p _ => some p
  | .readWoken p _ => some p
  | .writePark p _ _ => some p
  | .writeWoken p _ _ => some p
  | _ => none

/-- The pipe gives a loop at the point no reason to go on. -/
def Idle (q : Pipe) : Cont → Prop
  | .readPark _ _ => q.len = 0 ∧ 0 < q.writers
  | .readWoken _ _ => q.len = 0 ∧ 0 < q.writers
  | .writePark _ _ _ => q.len = pipeSize ∧ 0 < q.readers
  | .writeWoken _ _ _ => q.len = pipeSize ∧ 0 < q.readers
  | _ => True

/-- The pipe of a point exists and gives no reason to go on. -/
def PipeIdle (k : Kernel) (c : Cont) : Prop :=
  ∀ p, awaited c = some p → ∃ q, k.pipes p = some q ∧ Idle q c

/-- What holds of the tasks that are parked in pipe loops. -/
structure Parked (k : Kernel) : Prop where
  rings : Rings k
  waitPipe : ∀ i, Waits (k.tasks i) → ∀ p, awaited (k.tasks i).cont = some p →
    (k.tasks i).waitPipe = some p
  idle : ∀ i, Waits (k.tasks i) → PipeIdle k (k.tasks i).cont

/-- No task that is parked in `sys_waitpid` has a matching zombie child. -/
def Childless (k : Kernel) : Prop :=
  ∀ i pid, Waits (k.tasks i) → (k.tasks i).cont = .waitpid pid →
    ∀ j, (k.tasks j).state ≠ .free → (k.tasks j).parentPid = (k.tasks i).pid →
      Wanted pid (k.tasks j) → (k.tasks j).zombie = false

/-- A task about to park has nothing to do. -/
def Point (k : Kernel) : Prop := Parks k.cur.cont = true → PipeIdle k k.cur.cont

variable {k k' : Kernel}

theorem Idle.steady {q q' : Pipe} {c : Cont} (hs : Steady q q') (h : Idle q c) : Idle q' c := by
  cases c with
  | readPark p n => exact ⟨hs.len.trans h.1, lt_of_lt_of_le h.2 hs.writers⟩
  | readWoken p n => exact ⟨hs.len.trans h.1, lt_of_lt_of_le h.2 hs.writers⟩
  | writePark p data done => exact ⟨hs.len.trans h.1, lt_of_lt_of_le h.2 hs.readers⟩
  | writeWoken p data done => exact ⟨hs.len.trans h.1, lt_of_lt_of_le h.2 hs.readers⟩
  | _ => trivial

section Drifts

theorem Parked.of_drift {mem : Prop} (h : Parked k) (hd : Drift mem k k') : Parked k' := by
  refine ⟨hd.rings h.rings, fun i hw p hp => ?_, fun i hw p hp => ?_⟩
  · rw [(hd.tasks i).waitPipe hw]
    rw [(hd.tasks i).cont] at hp
    exact h.waitPipe i ((hd.tasks i).waits hw) p hp
  · have hw₀ := (hd.tasks i).waits hw
    have hwait : (k'.tasks i).waitPipe = some p := by
      rw [(hd.tasks i).waitPipe hw]
      rw [(hd.tasks i).cont] at hp
      exact h.waitPipe i hw₀ p hp
    rw [(hd.tasks i).cont] at hp ⊢
    obtain ⟨q, hq, hidle⟩ := h.idle i hw₀ p hp
    rcases hd.pipes p q hq with ⟨q', hq', hs⟩ | hu
    · exact ⟨q', hq', hidle.steady hs⟩
    · exact absurd hwait (hu i hw)

theorem Childless.of_drift {mem : Prop} (h : Childless k) (hd : Drift mem k k') :
    Childless k' := by
  intro i pid hw hc j hl hparent hwanted
  rw [(hd.tasks j).zombie]
  rw [(hd.tasks i).cont] at hc
  rw [(hd.tasks j).parentPid, (hd.tasks i).pid] at hparent
  refine h i pid ((hd.tasks i).waits hw) hc j (fun hf => hl ((hd.tasks j).free_iff.mpr hf))
    hparent ?_
  unfold Wanted at hwanted ⊢
  rwa [(hd.tasks j).pid] at hwanted

/-- No change touches a pipe while the current task is about to park. -/
theorem Change.pipes_of_parks {P : Policy} (h : Change P k k') (hp : Parks k.cur.cont = true) :
    k'.pipes = k.pipes := by
  have hno {Q : Prop} (hpark : Parks k.cur.cont = false) : Q :=
    Bool.noConfusion (hpark.symm.trans hp)
  cases h with
  | frame _ _ _ _ hpipes => exact hpipes
  | memory => rfl
  | edit => rfl
  | exec => rfl
  | file => rfl
  | close _ hpark => exact hno hpark
  | share _ _ hpark => exact hno hpark
  | newPipe _ _ _ _ _ _ _ _ hpark => exact hno hpark
  | wakeAll => rfl
  | transfer _ _ _ hpark => exact hno hpark
  | wake => rfl
  | inherit _ _ _ _ _ hpark => exact hno hpark
  | signal i sig =>
    unfold postSig
    split <;> rfl
  | signalSelf => rfl
  | clearWait => rfl
  | sigint => rfl

theorem Point.change {P : Policy} (h : Point k) (hc : Change P k k') : Point k' := by
  intro hp
  rw [hc.drift.cur.cont] at hp ⊢
  unfold PipeIdle
  rw [hc.pipes_of_parks hp]
  exact h hp

end Drifts

section Turns

theorem Parked.setTask (h : Parked k) {i : Slot} {t : Task}
    (ht : Waits t → (∀ p, awaited t.cont = some p → t.waitPipe = some p) ∧ PipeIdle k t.cont) :
    Parked (k.setTask i t) where
  rings := h.rings
  waitPipe := forall_setTask (Q := fun _ t => Waits t → ∀ p, awaited t.cont = some p →
    t.waitPipe = some p) (fun hw => (ht hw).1) fun j _ => h.waitPipe j
  idle := forall_setTask (Q := fun _ t => Waits t → PipeIdle k t.cont) (fun hw => (ht hw).2)
    fun j _ => h.idle j

theorem Childless.setTask (h : Childless k) {i : Slot} {t : Task}
    (hself : Waits t → ∀ pid, t.cont = .waitpid pid → ∀ j, (k.tasks j).state ≠ .free →
      (k.tasks j).parentPid = t.pid → Wanted pid (k.tasks j) → (k.tasks j).zombie = false)
    (hz : t.zombie = true → (k.tasks i).zombie = true ∧ (k.tasks i).state ≠ .free ∧
      t.pid = (k.tasks i).pid ∧ t.parentPid = (k.tasks i).parentPid) :
    Childless (k.setTask i t) := by
  refine forall_setTask (Q := fun w t' => ∀ pid, Waits t' → t'.cont = .waitpid pid → ∀ j,
    ((k.setTask i t).tasks j).state ≠ .free → ((k.setTask i t).tasks j).parentPid = t'.pid →
      Wanted pid ((k.setTask i t).tasks j) → ((k.setTask i t).tasks j).zombie = false) ?_ ?_
  · intro pid hw hc
    refine forall_setTask (Q := fun j t' => t'.state ≠ .free → t'.parentPid = t.pid →
      Wanted pid t' → t'.zombie = false) (fun _ _ _ => hw.2) fun j _ => hself hw pid hc j
  · intro w _ pid hw hc
    refine forall_setTask (Q := fun j t' => t'.state ≠ .free → t'.parentPid = (k.tasks w).pid →
      Wanted pid t' → t'.zombie = false) (fun _ hparent hwanted => ?_) fun j _ => h w pid hw hc j
    -- A zombie in the new place was one before.
    by_contra hne
    obtain ⟨hz', hl, hpid, hpp⟩ := hz ((Bool.not_eq_false _).mp hne)
    have hold := h w pid hw hc i hl (hpp.symm.trans hparent)
      (by unfold Wanted at hwanted ⊢; rwa [hpid] at hwanted)
    exact Bool.noConfusion (hold.symm.trans hz')

/-- `sched_yield` parks nobody. -/
theorem schedYield_waits (hrun : (k.tasks 0).Runnable) {i : Slot}
    (hw : Waits ((schedYield k).tasks i)) : Waits (k.tasks i) := by
  obtain ⟨u, hu⟩ := @schedYield_tasks k i
  rw [hu] at hw
  obtain ⟨hb, hz⟩ := hw
  have hb' : yieldState k i = .blocked := hb
  have hz' : (k.tasks i).zombie = false := hz
  refine ⟨?_, hz⟩
  rcases yieldState_cases (pickNext_runnable hrun) i with ⟨-, -, -, he⟩ | ⟨-, -, -, he⟩ | ⟨he, -⟩
  · exact absurd (he.symm.trans hb') (by decide)
  · rw [hz'] at he
    exact absurd (he.symm.trans hb') (by decide)
  · exact he.symm.trans hb'

theorem Parked.schedYield (h : Parked k) (hrun : (k.tasks 0).Runnable) :
    Parked (schedYield k) := by
  refine ⟨?_, fun i hw => ?_, fun i hw => ?_⟩
  · unfold Rings
    rw [schedYield_pipes]
    exact h.rings
  · have hw' := schedYield_waits hrun hw
    obtain ⟨u, hu⟩ := @schedYield_tasks k i
    rw [hu]
    exact h.waitPipe i hw'
  · have hw' := schedYield_waits hrun hw
    obtain ⟨u, hu⟩ := @schedYield_tasks k i
    unfold PipeIdle
    rw [hu, schedYield_pipes]
    exact h.idle i hw'

theorem Childless.schedYield (h : Childless k) (hrun : (k.tasks 0).Runnable) :
    Childless (schedYield k) := by
  intro i pid hw hc j hl
  have hw' := schedYield_waits hrun hw
  have hl' : (k.tasks j).state ≠ .free :=
    fun hf => hl ((schedYield_free_iff hrun j).mpr hf)
  obtain ⟨u, hu⟩ := @schedYield_tasks k i
  obtain ⟨v, hv⟩ := @schedYield_tasks k j
  rw [hu] at hc ⊢
  rw [hv]
  exact h i pid hw' hc j hl'

/-- The end of a task is noticed by its parent. -/
theorem markZombie_parent (hs : Sane k) {i w : Slot} (hi : i ≠ 0) (status : Int)
    (hw : (k.tasks w).state ≠ .free) (hparent : (k.tasks i).parentPid = (k.tasks w).pid) :
    ¬ Waits ((markZombie k i status).tasks w) := by
  have hslay := hs.slay hi status
  have hfind : schedFindPid (slay k i status) ((slay k i status).tasks i).parentPid = some w := by
    have hpid : ((slay k i status).tasks i).parentPid = ((slay k i status).tasks w).pid := by
      rw [slay_self]
      by_cases hwi : w = i
      · rw [hwi, slay_self]
        rw [hwi] at hparent
        exact hparent
      · rw [slay_of_ne status hwi]
        exact hparent
    rw [hpid]
    exact hslay.schedFindPid_eq (by rwa [slay_state])
  have hmark : markZombie k i status = schedWake (slay k i status) w := by
    change wakeParent (slay k i status) i = _
    unfold wakeParent
    rw [hfind]
  intro hwaits
  have hwake : (markZombie k i status).tasks w = ((slay k i status).tasks w).wake := by
    rw [hmark]
    exact Function.update_self ..
  rw [hwake] at hwaits
  have hm : Mild ((slay k i status).tasks w) ((slay k i status).tasks w).wake := Mild.wake _
  exact absurd (hwaits.1.symm.trans (wake_of_waits (hm.waits hwaits))) (by decide)

theorem Parked.markZombie (h : Parked k) (i : Slot) (status : Int) :
    Parked (markZombie k i status) := by
  have hslay : Parked (slay k i status) := h.setTask fun hw => Bool.noConfusion hw.2
  have hd : Drift True (slay k i status) (Sys.markZombie k i status) := markZombie_drift i status
  exact hslay.of_drift hd

theorem Childless.markZombie (h : Childless k) (hs : Sane k) {i : Slot} (hi : i ≠ 0)
    (status : Int) : Childless (markZombie k i status) := by
  have hd : Drift True (slay k i status) (Sys.markZombie k i status) := markZombie_drift i status
  intro w pid hw hc j hl hparent hwanted
  rw [(hd.tasks j).zombie]
  have hw₁ := (hd.tasks w).waits hw
  have hl₁ : (k.tasks j).state ≠ .free := by
    rw [← slay_state i j status]
    exact fun hf => hl ((hd.tasks j).free_iff.mpr hf)
  rw [(hd.tasks w).cont] at hc
  rw [(hd.tasks j).parentPid, (hd.tasks w).pid] at hparent
  unfold Wanted at hwanted
  rw [(hd.tasks j).pid] at hwanted
  have hwi : w ≠ i := by
    rintro rfl
    rw [slay_self] at hw₁
    exact Bool.noConfusion hw₁.2
  rw [slay_of_ne status hwi] at hc hparent hw₁
  by_cases hj : j = i
  · subst hj
    rw [slay_self] at hparent
    have hlive : (k.tasks w).state ≠ .free := fun hf => absurd (hw₁.1.symm.trans hf) (by decide)
    exact absurd hw (markZombie_parent hs hi status hlive hparent)
  · rw [slay_of_ne status hj] at hparent hwanted ⊢
    exact h w pid hw₁ hc j hl₁ hparent hwanted

/-- The children of a task that blocks are no zombies it waits for. -/
theorem Childless.block (h : Childless k) (hs : Sane k) {f : Task → Task} (hf : Blocks k f) :
    Childless (k.modCur f) := by
  have hkeep (t : Task) (hz : t.zombie = k.cur.zombie) (hpid : t.pid = k.cur.pid)
      (hpp : t.parentPid = k.cur.parentPid) : t.zombie = true → k.cur.zombie = true ∧
      k.cur.state ≠ .free ∧ t.pid = k.cur.pid ∧ t.parentPid = k.cur.parentPid :=
    fun ht => ⟨hz.symm.trans ht, hs.cur_live, hpid, hpp⟩
  cases hf with
  | read p n => exact h.setTask (fun _ pid hc => nomatch hc) (hkeep _ rfl rfl rfl)
  | write p data done => exact h.setTask (fun _ pid hc => nomatch hc) (hkeep _ rfl rfl rfl)
  | waitpid pid hnone =>
    refine h.setTask (fun _ pid' hc j hl hparent hwanted => ?_) (hkeep _ rfl rfl rfl)
    obtain rfl := Cont.waitpid.inj hc
    by_cases h0 : j = 0
    · rw [h0]
      exact hs.idle_zombie
    · exact hnone j ⟨hl, hparent, (hs.pid_pos j h0 hl).ne'⟩ hwanted
  | rudo c hc =>
    refine h.setTask (fun _ pid hc' => ?_) (hkeep _ rfl rfl rfl)
    rcases hc with rfl | rfl <;> cases hc'

theorem pipeIdle_of_none {c : Cont} {w : Option Nat} (hc : awaited c = none) :
    (∀ p, awaited c = some p → w = some p) ∧ PipeIdle k c := by
  unfold PipeIdle
  rw [hc]
  constructor
  · exact fun p hp => nomatch hp
  · exact fun p hp => nomatch hp

theorem Parked.block (h : Parked k) (hpoint : Point k) {f : Task → Task} (hf : Blocks k f) :
    Parked (k.modCur f) := by
  cases hf with
  | read p n hcont =>
    refine h.setTask fun _ => ⟨fun p' hp => hp, ?_⟩
    have := hpoint (by rw [hcont]; rfl)
    rw [hcont] at this
    exact this
  | write p data done hcont =>
    refine h.setTask fun _ => ⟨fun p' hp => hp, ?_⟩
    have := hpoint (by rw [hcont]; rfl)
    rw [hcont] at this
    exact this
  | waitpid pid => exact h.setTask fun _ => pipeIdle_of_none rfl
  | rudo c hc =>
    refine h.setTask fun _ => pipeIdle_of_none ?_
    rcases hc with rfl | rfl <;> rfl

theorem slay_cont (i j : Slot) (status : Int) :
    ((slay k i status).tasks j).cont = (k.tasks j).cont := by
  by_cases hj : j = i
  · rw [hj, slay_self]
  · rw [slay_of_ne status hj]

/-- The task that gets the CPU is not about to park. -/
theorem schedYield_parks (hp : ∀ i, i ≠ k.current → Parks (k.tasks i).cont = false)
    (hpark : Parks k.cur.cont = false) : Parks (schedYield k).cur.cont = false := by
  unfold Kernel.cur
  rw [schedYield_current]
  obtain ⟨u, hu⟩ := @schedYield_tasks k (pickNext k)
  rw [hu]
  by_cases hn : pickNext k = k.current
  · rw [hn]
    exact hpark
  · exact hp _ hn

/-- Every wait of a task is justified. -/
structure Vigilant (k : Kernel) : Prop where
  pipesOk : PipesOk k
  parked : Parked k
  childless : Childless k
  point : Point k

theorem Point.of_cont (h : Parks k.cur.cont = false) : Point k :=
  fun hp => Bool.noConfusion (h.symm.trans hp)

theorem markZombie_cont (i : Slot) (status : Int) :
    (markZombie k i status).cur.cont = k.cur.cont := by
  have hd : Drift True (slay k i status) (markZombie k i status) := markZombie_drift i status
  rw [hd.cur.cont]
  exact slay_cont i k.current status

theorem terminate_cont (i : Slot) (status : Int) :
    (fdsRelease (markZombie k i status) i).cur.cont = k.cur.cont := by
  have hd : Drift True (markZombie k i status) (fdsRelease (markZombie k i status) i) :=
    fdsRelease_drift i
  rw [hd.cur.cont, markZombie_cont]

theorem kill_cont {i : Slot} (hi : i ≠ k.current) (sig : Sig) :
    (killParked (k.modTask i fun t => t.addSig sig) i).cur.cont = k.cur.cont := by
  have hd : Drift True _ (killParked (k.modTask i fun t => t.addSig sig) i) :=
    killParked_drift_markZombie i
  have hself : (k.modTask i fun t => t.addSig sig).cur = k.cur := Function.update_of_ne hi.symm ..
  rw [hd.cur.cont, markZombie_cont, hself]

theorem reap_cont {i : Slot} (hi : i ≠ k.current) :
    ((fdsRelease k i).setTask i Task.zero).cur.cont = k.cur.cont := by
  have hd : Drift True k (fdsRelease k i) := fdsRelease_drift i
  have hi' : (fdsRelease k i).current ≠ i := by
    rw [hd.current]
    exact hi.symm
  have hself : ((fdsRelease k i).setTask i Task.zero).cur = (fdsRelease k i).cur :=
    Function.update_of_ne hi' ..
  rw [hself, hd.cur.cont]

theorem readPark_idle (h : PipesOk k) {p : Nat} {q : Pipe} (hq : k.pipes p = some q)
    (hlen : q.len = 0) (hw : q.writers ≠ 0) (n : Nat) : PipeIdle k (.readPark p n) := by
  intro p' hp
  cases hp
  have hn := ends_nonneg (p := p) wr_nonneg (files k)
  rw [← (h.counted.counts hq).2] at hn
  exact ⟨q, hq, hlen, lt_of_le_of_ne hn hw.symm⟩

theorem writePark_idle (h : PipesOk k) (hr : Rings k) {p : Nat} {q : Pipe}
    (hq : k.pipes p = some q) (hlen : ¬ q.len < pipeSize) (hrd : q.readers ≠ 0)
    (data : List UInt8) (done : Nat) : PipeIdle k (.writePark p data done) := by
  intro p' hp
  cases hp
  have hn := ends_nonneg (p := p) rd_nonneg (files k)
  rw [← (h.counted.counts hq).1] at hn
  exact ⟨q, hq, le_antisymm (hr p q hq).len_le (not_lt.mp hlen), lt_of_le_of_ne hn hrd.symm⟩

theorem Vigilant.turn {P : Policy} (h : Vigilant k) (hs : Sane k) (ht : Turn P k k') :
    Vigilant k' := by
  have hpipes := h.pipesOk.turn hs ht
  -- The current task runs; where it goes on does not matter for those that wait.
  have hcur (c : Cont) (r : Int) : Parked (k.setTask k.current { k.cur with cont := c, rax := r }) ∧
      Childless (k.setTask k.current { k.cur with cont := c, rax := r }) := by
    have hw : ¬ Waits { k.cur with cont := c, rax := r } :=
      fun hw => TaskState.noConfusion (hs.running.symm.trans hw.1)
    exact ⟨h.parked.setTask fun hw' => absurd hw' hw, h.childless.setTask
      (fun hw' => absurd hw' hw) fun hz => ⟨hz, hs.cur_live, rfl, rfl⟩⟩
  cases ht with
  | goto c r b hidle hpark =>
    obtain ⟨hp, hc⟩ := hcur c r
    refine ⟨hpipes, ⟨hp.rings, hp.waitPipe, hp.idle⟩, hc, Point.of_cont ?_⟩
    exact (congrArg (fun t : Task => Parks t.cont) (Function.update_self ..)).trans hpark
  | readPark p n q h0 hq hlen hw =>
    obtain ⟨hp, hc⟩ := hcur (.readPark p n) k.cur.rax
    refine ⟨hpipes, hp, hc, fun _ => ?_⟩
    rw [goto_cont]
    exact readPark_idle h.pipesOk hq hlen hw n
  | writePark p data done q h0 hq hlen hr =>
    obtain ⟨hp, hc⟩ := hcur (.writePark p data done) k.cur.rax
    refine ⟨hpipes, hp, hc, fun _ => ?_⟩
    rw [goto_cont]
    exact writePark_idle h.pipesOk h.parked.rings hq hlen hr data done
  | spawn hP i t hfree ht =>
    have hw : ¬ Waits t := fun hw => by
      rcases ht.state with hs | hs <;> exact TaskState.noConfusion (hs.symm.trans hw.1)
    have hp : Parked (k.setTask i t) := h.parked.setTask fun hw' => absurd hw' hw
    have hc : Childless (k.setTask i t) := h.childless.setTask (fun hw' => absurd hw' hw)
      fun hz => Bool.noConfusion (ht.zombie.symm.trans hz)
    have hi : k.current ≠ i := by
      rintro rfl
      exact hs.cur_live hfree
    have hself : (k.setTask i t).cur = k.cur := Function.update_of_ne hi ..
    refine ⟨hpipes, ⟨hp.rings, hp.waitPipe, hp.idle⟩, hc, fun hpark => ?_⟩
    have hpark' : Parks (k.setTask i t).cur.cont = true := hpark
    rw [hself] at hpark'
    exact (congrArg (fun t : Task => PipeIdle k t.cont) hself).mpr (h.point hpark')
  | yield hpark =>
    exact ⟨hpipes, h.parked.schedYield hs.idle_runnable, h.childless.schedYield hs.idle_runnable,
      Point.of_cont (schedYield_parks hs.parks hpark)⟩
  | block f h0 hf =>
    obtain ⟨ht, -, hpark⟩ := hs.block h0 hf
    exact ⟨hpipes, (h.parked.block h.point hf).schedYield ht.idle_runnable,
      (h.childless.block hs hf).schedYield ht.idle_runnable,
      Point.of_cont (schedYield_parks ht.parks hpark)⟩
  | die status h0 hP hpark =>
    exact ⟨hpipes, h.parked.markZombie _ _, h.childless.markZombie hs h0 _,
      Point.of_cont ((congrArg Parks (markZombie_cont _ _)).trans hpark)⟩
  | terminate status h0 hpark =>
    have hd : Drift True (markZombie k k.current status)
      (fdsRelease (markZombie k k.current status) k.current) := fdsRelease_drift _
    exact ⟨hpipes, (h.parked.markZombie _ _).of_drift hd,
      (h.childless.markZombie hs h0 _).of_drift hd,
      Point.of_cont ((congrArg Parks (terminate_cont _ _)).trans hpark)⟩
  | kill i h0 hi hlive hP hpark =>
    have hp : Parked (k.modTask i fun t => t.addSig sigKill) :=
      h.parked.setTask fun hw => ⟨h.parked.waitPipe i hw, h.parked.idle i hw⟩
    have hc : Childless (k.modTask i fun t => t.addSig sigKill) :=
      h.childless.setTask (fun hw pid hc => h.childless i pid hw hc) fun hz =>
        ⟨hz, hlive, rfl, rfl⟩
    have hd : Drift True _ (killParked (k.modTask i fun t => t.addSig sigKill) i) :=
      killParked_drift_markZombie i
    exact ⟨hpipes, (hp.markZombie i _).of_drift hd,
      (hc.markZombie (hs.addSig h0 hi sigKill) h0 _).of_drift hd,
      Point.of_cont ((congrArg Parks (kill_cont hi sigKill)).trans hpark)⟩
  | reap hP i h0 hi hz hpark =>
    have hd : Drift True k (fdsRelease k i) := fdsRelease_drift i
    have hw : ¬ Waits Task.zero := fun hw => TaskState.noConfusion hw.1
    exact ⟨hpipes, (h.parked.of_drift hd).setTask fun hw' => absurd hw' hw,
      (h.childless.of_drift hd).setTask (fun hw' => absurd hw' hw) fun hz => Bool.noConfusion hz,
      Point.of_cont ((congrArg Parks (reap_cont hi)).trans hpark)⟩

/-- Every move keeps the waits justified. -/
theorem Vigilant.move {P : Policy} (h : Vigilant k) (hs : Sane k) (hm : Move P k k') :
    Vigilant k' := by
  cases hm with
  | change hc =>
    exact ⟨h.pipesOk.change hs hc, h.parked.of_drift hc.drift, h.childless.of_drift hc.drift,
      h.point.change hc⟩
  | turn ht => exact h.turn hs ht

theorem Started.vigilant (h : Started k) : Vigilant k := by
  have hw (i : Slot) : ¬ Waits (k.tasks i) := fun hw => h.blocked i hw.1
  refine ⟨h.pipesOk, ⟨fun p q hq => ?_, fun i hi => absurd hi (hw i), fun i hi => absurd hi (hw i)⟩,
    fun i _ hi => absurd hi (hw i), Point.of_cont (h.parks k.current)⟩
  rw [h.pipes] at hq
  cases hq

end Turns

section Signals

/-- Ctrl+C does not reach a task that is about to park. -/
def sigintApart : Policy :=
  { Policy.any with sigint := fun k => Parks k.cur.cont = true → k.cur.pgid ≠ k.fgPgid }

/-- No signal is pending for a task that is parked in a pipe loop. -/
def Quiet (k : Kernel) : Prop :=
  ∀ i, Waits (k.tasks i) → awaited (k.tasks i).cont ≠ none → (k.tasks i).sigPending = 0

/-- No signal is pending for a task that is about to park. -/
def QuietPoint (k : Kernel) : Prop := Parks k.cur.cont = true → k.cur.sigPending = 0

theorem Quiet.of_drift {mem : Prop} (h : Quiet k) (hp : Parked k) (hd : Drift mem k k') :
    Quiet k' := by
  intro i hw ha
  rw [(hd.tasks i).cont] at ha
  have hw₀ := (hd.tasks i).waits hw
  obtain ⟨p, hc⟩ := Option.ne_none_iff_exists'.mp ha
  have hwait : (k.tasks i).waitPipe ≠ none := by
    rw [hp.waitPipe i hw₀ p hc]
    exact fun h => nomatch h
  exact (hd.tasks i).sigPending hw hwait (h i hw₀ ha)

theorem Quiet.setTask (h : Quiet k) {i : Slot} {t : Task}
    (ht : Waits t → awaited t.cont ≠ none → t.sigPending = 0) : Quiet (k.setTask i t) :=
  forall_setTask (Q := fun _ t => Waits t → awaited t.cont ≠ none → t.sigPending = 0) ht
    fun j _ => h j

theorem Quiet.schedYield (h : Quiet k) (hrun : (k.tasks 0).Runnable) : Quiet (schedYield k) := by
  intro i hw
  have hw' := schedYield_waits hrun hw
  obtain ⟨u, hu⟩ := @schedYield_tasks k i
  rw [hu]
  exact h i hw'

theorem QuietPoint.of_cont (h : Parks k.cur.cont = false) : QuietPoint k :=
  fun hp => Bool.noConfusion (h.symm.trans hp)

theorem wake_sigPending (t : Task) : t.wake.sigPending = t.sigPending := by
  unfold Task.wake
  split <;> rfl

theorem wakeOn_sigPending (p : Nat) (t : Task) : (t.wakeOn p).sigPending = t.sigPending := by
  unfold Task.wakeOn
  split
  · exact wake_sigPending _
  · rfl

theorem raiseSigint_sigPending {fg : Int} {t : Task} (h : t.pgid ≠ fg) :
    (t.raiseSigint fg).sigPending = t.sigPending := by
  unfold Task.raiseSigint
  rw [if_pos h]
  split <;> rfl

/-- A property of the current task after one task was replaced. -/
theorem cur_setTask {Q : Task → Prop} {i : Slot} {t : Task} (hi : i = k.current → Q t)
    (h : Q k.cur) : Q (k.setTask i t).cur :=
  forall_setTask (Q := fun j t => j = k.current → Q t) hi (fun _ _ hj => hj ▸ h) k.current rfl

theorem QuietPoint.change (h : QuietPoint k) (hc : Change sigintApart k k') : QuietPoint k' := by
  intro hp
  rw [hc.drift.cur.cont] at hp
  have h0 := h hp
  have hno {Q : Prop} (hpark : Parks k.cur.cont = false) : Q :=
    Bool.noConfusion (hpark.symm.trans hp)
  have hset {i : Slot} {t : Task} (ht : i = k.current → t.sigPending = 0) :
      (k.setTask i t).cur.sigPending = 0 := cur_setTask (Q := fun t => t.sigPending = 0) ht h0
  cases hc with
  | frame _ htasks hcur => rwa [Kernel.cur, htasks, hcur]
  | memory => exact h0
  | edit i t ht => exact hset fun hi => ht.sigPending (hi ▸ h0)
  | exec _ t ht => exact hset fun _ => ht.sigPending h0
  | file => exact hset fun _ => h0
  | close _ hpark => exact hno hpark
  | share _ _ hpark => exact hno hpark
  | newPipe _ _ _ _ _ _ _ _ hpark => exact hno hpark
  | wakeAll p => exact (wakeOn_sigPending p _).trans h0
  | transfer _ _ _ hpark => exact hno hpark
  | wake i => exact hset fun hi => (wake_sigPending _).trans (hi ▸ h0)
  | inherit _ _ _ _ _ hpark => exact hno hpark
  | signal i sig hi =>
    have hsend : (k.modTask i fun t => t.addSig sig).cur.sigPending = 0 :=
      hset fun hc => absurd hc hi
    unfold postSig
    split
    · exact hsend
    · exact (wakeOn_sigPending _ _).trans hsend
  | signalSelf _ _ hpark => exact hno hpark
  | clearWait => exact hset fun _ => h0
  | sigint hP => exact (raiseSigint_sigPending (hP hp)).trans h0

theorem Quiet.block (h : Quiet k) (hpoint : QuietPoint k) {f : Task → Task} (hf : Blocks k f) :
    Quiet (k.modCur f) := by
  cases hf with
  | read p n hcont => exact h.setTask fun _ _ => hpoint (by rw [hcont]; rfl)
  | write p data done hcont => exact h.setTask fun _ _ => hpoint (by rw [hcont]; rfl)
  | waitpid pid => exact h.setTask fun _ ha => absurd rfl ha
  | rudo c hc =>
    refine h.setTask fun _ ha => absurd ?_ ha
    rcases hc with rfl | rfl <;> rfl

theorem Quiet.markZombie (h : Quiet k) (hp : Parked k) (i : Slot) (status : Int) :
    Quiet (markZombie k i status) := by
  have hslay : Quiet (slay k i status) := h.setTask fun hw => Bool.noConfusion hw.2
  have hparked : Parked (slay k i status) := hp.setTask fun hw => Bool.noConfusion hw.2
  have hd : Drift True (slay k i status) (Sys.markZombie k i status) := markZombie_drift i status
  exact hslay.of_drift hparked hd

theorem Quiet.turn {P : Policy} (h : Quiet k) (hpoint : QuietPoint k) (hv : Vigilant k)
    (hs : Sane k) (ht : Turn P k k') : Quiet k' ∧ QuietPoint k' := by
  have hcur (c : Cont) (r : Int) : Quiet (k.setTask k.current { k.cur with cont := c, rax := r }) :=
    h.setTask fun hw => TaskState.noConfusion (hs.running.symm.trans hw.1)
  cases ht with
  | goto c r b hidle hpark =>
    refine ⟨hcur c r, QuietPoint.of_cont ?_⟩
    exact (congrArg (fun t : Task => Parks t.cont) (Function.update_self ..)).trans hpark
  | readPark p n q _ _ _ _ hsig =>
    refine ⟨hcur _ k.cur.rax, fun _ => ?_⟩
    exact cur_setTask (Q := fun t => t.sigPending = 0) (fun _ => hsig) hsig
  | writePark p data done q _ _ _ _ hsig =>
    refine ⟨hcur _ k.cur.rax, fun _ => ?_⟩
    exact cur_setTask (Q := fun t => t.sigPending = 0) (fun _ => hsig) hsig
  | spawn hP i t hfree ht =>
    refine ⟨h.setTask fun hw => ?_, ?_⟩
    · rcases ht.state with hs | hs <;> exact TaskState.noConfusion (hs.symm.trans hw.1)
    · refine cur_setTask (Q := fun t => Parks t.cont = true → t.sigPending = 0) (fun hi => ?_)
        hpoint
      subst hi
      exact absurd hfree hs.cur_live
  | yield hpark =>
    exact ⟨h.schedYield hs.idle_runnable, QuietPoint.of_cont (schedYield_parks hs.parks hpark)⟩
  | block f h0 hf =>
    obtain ⟨ht, -, hpark⟩ := hs.block h0 hf
    exact ⟨(h.block hpoint hf).schedYield ht.idle_runnable,
      QuietPoint.of_cont (schedYield_parks ht.parks hpark)⟩
  | die status h0 hP hpark =>
    exact ⟨h.markZombie hv.parked _ _,
      QuietPoint.of_cont ((congrArg Parks (markZombie_cont _ _)).trans hpark)⟩
  | terminate status h0 hpark =>
    have hd : Drift True (Sys.markZombie k k.current status)
      (fdsRelease (Sys.markZombie k k.current status) k.current) := fdsRelease_drift _
    exact ⟨(h.markZombie hv.parked _ _).of_drift (hv.parked.markZombie _ _) hd,
      QuietPoint.of_cont ((congrArg Parks (terminate_cont _ _)).trans hpark)⟩
  | kill i h0 hi hlive hP hpark =>
    refine ⟨?_, QuietPoint.of_cont ((congrArg Parks (kill_cont hi sigKill)).trans hpark)⟩
    -- The signal and the end of the task are one change: a zombie does not wait.
    have hslay : slay (k.modTask i fun t => t.addSig sigKill) i (-(sigKill.val : Int)) =
        k.setTask i { (k.tasks i).addSig sigKill with
          exitStatus := -(sigKill.val : Int), zombie := true } := by
      simp only [slay, Kernel.modTask, Kernel.setTask, Function.update_idem,
        Function.update_self]
    have hd : Drift True _ (killParked (k.modTask i fun t => t.addSig sigKill) i) :=
      killParked_drift i
    rw [hslay] at hd
    exact (h.setTask fun hw => Bool.noConfusion hw.2).of_drift
      (hv.parked.setTask fun hw => Bool.noConfusion hw.2) hd
  | reap hP i h0 hi hz hpark =>
    have hd : Drift True k (fdsRelease k i) := fdsRelease_drift i
    exact ⟨(h.of_drift hv.parked hd).setTask fun hw => TaskState.noConfusion hw.1,
      QuietPoint.of_cont ((congrArg Parks (reap_cont hi)).trans hpark)⟩

/-- The event is not Ctrl+C for the process group of a task about to park. -/
def SigintApart (k : Kernel) : Event → Prop
  | .ctrlC => Parks k.cur.cont = true → k.cur.pgid ≠ k.fgPgid
  | _ => True

instance (k : Kernel) (e : Event) : Decidable (SigintApart k e) := by
  unfold SigintApart
  split <;> infer_instance

theorem SigintApart.allowed {e : Event} (h : SigintApart k e) : Allowed sigintApart k e := by
  refine { allowed_any k e with sigint := ?_ }
  rintro rfl
  exact h

theorem quiet_move (h : Vigilant k ∧ Quiet k ∧ QuietPoint k) (hs : Sane k)
    (hm : Move sigintApart k k') : Vigilant k' ∧ Quiet k' ∧ QuietPoint k' := by
  refine ⟨h.1.move hs hm, ?_⟩
  cases hm with
  | change hc => exact ⟨h.2.1.of_drift h.1.parked hc.drift, h.2.2.change hc⟩
  | turn ht => exact h.2.1.turn h.2.2 h.1 hs ht

/-- A blocked task has nothing to do: in every state of every run, the pipe it
reads is empty and has a writer, the pipe it writes is full and has a reader,
and no child it waits for is a zombie. If Ctrl+C never comes between the last
check of a pipe loop and the parking, it has no pending signal either. -/
theorem blocked_task_has_nothing_to_do {vm : Vm} {init rudod : Option FileData} {k₀ : Kernel}
    {es : List Event} (hboot : boot vm init rudod = some k₀)
    (hrun : Run.run step k₀ es = some k) {i : Slot} (hw : Waits (k.tasks i)) :
    (∀ p n, (k.tasks i).cont = .readWoken p n →
      ∃ q, k.pipes p = some q ∧ q.len = 0 ∧ 0 < q.writers) ∧
    (∀ p data done, (k.tasks i).cont = .writeWoken p data done →
      ∃ q, k.pipes p = some q ∧ q.len = 256 ∧ 0 < q.readers) ∧
    (∀ pid, (k.tasks i).cont = .waitpid pid → ∀ j, (k.tasks j).state ≠ .free →
      (k.tasks j).parentPid = (k.tasks i).pid → Wanted pid (k.tasks j) →
      (k.tasks j).zombie = false) ∧
    (Run.Along step SigintApart k₀ es → awaited (k.tasks i).cont ≠ none →
      (k.tasks i).sigPending = 0) := by
  have hstart := boot_started hboot
  obtain ⟨-, hv⟩ := run_invariant (fun k e _ => allowed_any k e) (fun _ _ hs h hm =>
    Vigilant.move h hs hm) hstart.sane hstart.vigilant (Run.along_true k₀ es) hrun
  have hidle := hv.parked.idle i hw
  refine ⟨fun p n hc => ?_, fun p data done hc => ?_, fun pid hc => hv.childless i pid hw hc,
    fun hcond => ?_⟩
  · rw [hc] at hidle
    exact hidle p rfl
  · rw [hc] at hidle
    exact hidle p rfl
  · have hnone : Quiet k₀ := fun j hj => absurd hj.1 (hstart.blocked j)
    exact (run_invariant (fun _ _ => SigintApart.allowed) (fun _ _ hs h hm => quiet_move h hs hm)
      hstart.sane ⟨hstart.vigilant, hnone, QuietPoint.of_cont (hstart.parks _)⟩ hcond
      hrun).2.2.1 i hw

/-- The first process makes a pipe and reads from it. -/
def readEmpty : List Event :=
  .resume :: call (.pipe (some 5)) ++ call (.read 3 false 1 0) ++ [.resume, .resume]

theorem blocked_task_has_nothing_to_do_reader : ∃ k₀ k,
    boot smallVm (some smallProgram) none = some k₀ ∧ Run.run step k₀ readEmpty = some k ∧
    Waits (k.tasks 1) ∧ awaited (k.tasks 1).cont = some 5 ∧ (k.tasks 1).sigPending = 0 := by
  have hrun : ∃ k₀, boot smallVm (some smallProgram) none = some k₀ ∧
      Run.Along step SigintApart k₀ readEmpty ∧
      ∃ k, Run.run step k₀ readEmpty = some k ∧ (k.tasks 1).state = .blocked ∧
      (k.tasks 1).zombie = false ∧ awaited (k.tasks 1).cont = some 5 := by
    decide +kernel
  obtain ⟨k₀, hboot, hcond, k, hrun, hb, hz, hc⟩ := hrun
  obtain ⟨-, -, -, hsig⟩ := blocked_task_has_nothing_to_do hboot hrun ⟨hb, hz⟩
  exact ⟨k₀, k, hboot, hrun, ⟨hb, hz⟩, hc, hsig hcond (by rw [hc]; exact fun h => nomatch h)⟩

/-- The first process makes its own process group and a pipe, and is preempted
in its call of `sys_read`. It gets the CPU back from the idle task, with
interrupts enabled. Ctrl+C then comes after the last check of the loop. -/
def interruptedRead : List Event :=
  .resume :: call (.setpgid 0 0) ++ call (.pipe (some 5)) ++
    [.tick, .syscall (.read 3 false 1 0) ⟨0, 0, 0x202⟩, .resume] ++
    [.resume, .resume, .tick, .resume] ++ [.resume, .resume, .ctrlC, .resume]

/-- The point after the parking in `pipe_read`. -/
def inPipeRead (p : Nat) : Cont → Bool
  | .readWoken p' _ => p' == p
  | _ => false

/-- A task that is parked in `pipe_read` with a pending signal. -/
theorem parked_with_pending_signal : ∃ k₀, boot smallVm (some smallProgram) none = some k₀ ∧
    ∃ k, Run.run step k₀ interruptedRead = some k ∧ (k.tasks 1).state = .blocked ∧
    (k.tasks 1).zombie = false ∧ inPipeRead 5 (k.tasks 1).cont = true ∧
    (k.tasks 1).sigPending ≠ 0 := by
  decide +kernel

end Signals

end Mmix.Sys
