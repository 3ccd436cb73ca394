import Mmix.Sys.Machine

/-!
# Changes that other tasks notice only as wake-ups

Most functions of the kernel leave the identity, the position and the fate of
all tasks alone, and at most make blocked tasks ready. They are summarised by
one relation, which also says that a pipe may only change in the view of a
parked task after that task has been woken.
-/

namespace Mmix.Sys

open Mm Fs Proc Kernel Function

/-- A live task that is blocked. -/
def Waits (t : Task) : Prop := t.state = .blocked ∧ t.zombie = false

/-- The task keeps its identity and position, and is at most woken. -/
structure Mild (t t' : Task) : Prop where
  pid : t'.pid = t.pid
  parentPid : t'.parentPid = t.parentPid
  zombie : t'.zombie = t.zombie
  exitStatus : t'.exitStatus = t.exitStatus
  cont : t'.cont = t.cont
  state : t'.state = t.state ∨ (Waits t ∧ t'.state = .ready)
  waitPipe : Waits t' → t'.waitPipe = t.waitPipe
  sigPending : Waits t' → t.waitPipe ≠ none → t.sigPending = 0 → t'.sigPending = 0

namespace Mild

variable {t t' t'' : Task}

theorem refl (t : Task) : Mild t t := by
  refine ⟨rfl, rfl, rfl, rfl, rfl, Or.inl rfl, fun _ => rfl, fun _ _ h => h⟩

/-- A task that still waits was waiting before. -/
theorem waits (h : Mild t t') (hw : Waits t') : Waits t := by
  rcases h.state with hs | ⟨hw', _⟩
  · exact ⟨hs.symm.trans hw.1, h.zombie.symm.trans hw.2⟩
  · exact hw'

theorem trans (h : Mild t t') (h' : Mild t' t'') : Mild t t'' where
  pid := h'.pid.trans h.pid
  parentPid := h'.parentPid.trans h.parentPid
  zombie := h'.zombie.trans h.zombie
  exitStatus := h'.exitStatus.trans h.exitStatus
  cont := h'.cont.trans h.cont
  state := by
    rcases h'.state with hs | ⟨hw, hr⟩
    · rcases h.state with hs' | ⟨hw', hr'⟩
      · exact Or.inl (hs.trans hs')
      · exact Or.inr ⟨hw', hs.trans hr'⟩
    · exact Or.inr ⟨h.waits hw, hr⟩
  waitPipe := fun hw => (h'.waitPipe hw).trans (h.waitPipe (h'.waits hw))
  sigPending := fun hw hp hs => by
    have hw' := h'.waits hw
    exact h'.sigPending hw (by rwa [h.waitPipe hw']) (h.sigPending hw' hp hs)

theorem free_iff (h : Mild t t') : t'.state = .free ↔ t.state = .free := by
  rcases h.state with hs | ⟨hw, hr⟩
  · rw [hs]
  · rw [hr, hw.1]
    exact ⟨fun h => TaskState.noConfusion h, fun h => TaskState.noConfusion h⟩

theorem running_iff (h : Mild t t') : t'.state = .running ↔ t.state = .running := by
  rcases h.state with hs | ⟨hw, hr⟩
  · rw [hs]
  · rw [hr, hw.1]
    exact ⟨fun h => TaskState.noConfusion h, fun h => TaskState.noConfusion h⟩

theorem wake (t : Task) : Mild t t.wake := by
  unfold Task.wake
  split
  next h =>
    exact ⟨rfl, rfl, rfl, rfl, rfl, Or.inr ⟨h, rfl⟩, fun hw => TaskState.noConfusion hw.1,
      fun hw => TaskState.noConfusion hw.1⟩
  next => exact refl t

/-- Any change of the signals and the awaited pipe, if the task is then woken. -/
theorem wake_with (t : Task) (sigs : BitVec 32) (w : Option Nat) :
    Mild t (Task.wake { t with sigPending := sigs, waitPipe := w }) := by
  unfold Task.wake
  split
  next hz =>
    exact ⟨rfl, rfl, rfl, rfl, rfl, Or.inr ⟨hz, rfl⟩, fun hw => TaskState.noConfusion hw.1,
      fun hw => TaskState.noConfusion hw.1⟩
  next hz =>
    exact ⟨rfl, rfl, rfl, rfl, rfl, Or.inl rfl, fun hw => absurd hw hz, fun hw => absurd hw hz⟩

theorem wakeOn (p : Nat) (t : Task) : Mild t (t.wakeOn p) := by
  unfold Task.wakeOn
  split
  next h => exact wake_with t _ _
  next => exact refl t

/-- A task that is parked on a pipe, or runnable, is sent a signal and woken. -/
theorem addSig_wakeOn {p : Nat} (sig : Sig) (hp : t.waitPipe = some p) :
    Mild t ((t.addSig sig).wakeOn p) := by
  unfold Task.wakeOn
  split
  next h => exact wake_with t _ _
  next h =>
    have hs : t.state ≠ .blocked := fun hs => h ⟨hs, hp⟩
    exact ⟨rfl, rfl, rfl, rfl, rfl, Or.inl rfl, fun hw => absurd hw.1 hs, fun hw => absurd hw.1 hs⟩

theorem raiseSigint (fg : Int) (t : Task) : Mild t (t.raiseSigint fg) := by
  unfold Task.raiseSigint
  split
  next => exact refl t
  next =>
    split
    next => exact refl t
    next =>
      dsimp only
      split
      next hb => exact wake_with t _ _
      next hb =>
        refine ⟨rfl, rfl, rfl, rfl, rfl, Or.inl rfl, fun _ => rfl, fun hw hp => ?_⟩
        exact absurd ⟨hw.1, hp⟩ hb

end Mild

/-- No live task is parked on the pipe. -/
def Unwatched (k : Kernel) (p : Nat) : Prop :=
  ∀ i, Waits (k.tasks i) → (k.tasks i).waitPipe ≠ some p

/-- What a parked task relies on: the fill level stays and the ends do not
become fewer. -/
structure Steady (q q' : Pipe) : Prop where
  len : q'.len = q.len
  readers : q.readers ≤ q'.readers
  writers : q.writers ≤ q'.writers

theorem Steady.refl (q : Pipe) : Steady q q := ⟨rfl, le_refl _, le_refl _⟩

theorem Steady.trans {q q' q'' : Pipe} (h : Steady q q') (h' : Steady q' q'') : Steady q q'' :=
  ⟨h'.len.trans h.len, h.readers.trans h'.readers, h.writers.trans h'.writers⟩

/-- The buffers of all pipes are well formed. -/
def Rings (k : Kernel) : Prop := ∀ p q, k.pipes p = some q → q.Valid pipeSize

theorem Rings.setPipe {k : Kernel} (h : Rings k) {p : Nat} {r : Option Pipe}
    (hr : ∀ q, r = some q → q.Valid pipeSize) : Rings (k.setPipe p r) := by
  intro p' q hq
  simp only [Kernel.setPipe] at hq
  by_cases hp : p' = p
  · rw [hp, update_self] at hq
    exact hr q hq
  · rw [update_of_ne hp] at hq
    exact h p' q hq

/-- Memory and the address spaces and kernel stacks of all tasks are the same. -/
structure SameSpace (k k' : Kernel) : Prop where
  vm : k'.vm = k.vm
  pml4Phys : ∀ i, (k'.tasks i).pml4Phys = (k.tasks i).pml4Phys
  kstack : ∀ i, (k'.tasks i).kstack = (k.tasks i).kstack

theorem SameSpace.trans {k k' k'' : Kernel} (h : SameSpace k k') (h' : SameSpace k' k'') :
    SameSpace k k'' :=
  ⟨h'.vm.trans h.vm, fun i => (h'.pml4Phys i).trans (h.pml4Phys i),
    fun i => (h'.kstack i).trans (h.kstack i)⟩

/-- All tasks change mildly, and every pipe stays steady for those that are
still parked on it. Memory changes only if the parameter allows it. -/
structure Drift (mem : Prop) (k k' : Kernel) : Prop where
  tasks : ∀ i, Mild (k.tasks i) (k'.tasks i)
  current : k'.current = k.current
  nextPid : k'.nextPid = k.nextPid
  pipes : ∀ p q, k.pipes p = some q →
    (∃ q', k'.pipes p = some q' ∧ Steady q q') ∨ Unwatched k' p
  rings : Rings k → Rings k'
  space : mem ∨ SameSpace k k'

namespace Drift

variable {mem : Prop} {k k' k'' : Kernel}

theorem of_tasks (h : ∀ i, Mild (k.tasks i) (k'.tasks i)) (hc : k'.current = k.current)
    (hn : k'.nextPid = k.nextPid) (hp : k'.pipes = k.pipes) (hs : mem ∨ SameSpace k k') :
    Drift mem k k' :=
  ⟨h, hc, hn, fun p q hq => Or.inl ⟨q, by rw [hp, hq], Steady.refl q⟩,
    fun hr p q hq => hr p q (by rwa [hp] at hq), hs⟩

theorem refl (k : Kernel) : Drift mem k k :=
  of_tasks (fun _ => Mild.refl _) rfl rfl rfl (Or.inr ⟨rfl, fun _ => rfl, fun _ => rfl⟩)

theorem unwatched (h : Drift mem k k') {p : Nat} (hp : Unwatched k p) : Unwatched k' p := by
  intro i hw
  rw [(h.tasks i).waitPipe hw]
  exact hp i ((h.tasks i).waits hw)

theorem trans (h : Drift mem k k') (h' : Drift mem k' k'') : Drift mem k k'' where
  tasks := fun i => (h.tasks i).trans (h'.tasks i)
  current := h'.current.trans h.current
  nextPid := h'.nextPid.trans h.nextPid
  pipes := fun p q hq => by
    rcases h.pipes p q hq with ⟨q₁, hq₁, hs⟩ | hu
    · rcases h'.pipes p q₁ hq₁ with ⟨q₂, hq₂, hs'⟩ | hu
      · exact Or.inl ⟨q₂, hq₂, hs.trans hs'⟩
      · exact Or.inr hu
    · exact Or.inr (h'.unwatched hu)
  rings := fun hr => h'.rings (h.rings hr)
  space := by
    rcases h.space with hm | hs
    · exact Or.inl hm
    · exact h'.space.imp_right hs.trans

theorem cur (h : Drift mem k k') : Mild k.cur k'.cur := by
  unfold Kernel.cur
  rw [h.current]
  exact h.tasks _

theorem foldl {α : Type*} (f : Kernel → α → Kernel) (h : ∀ k a, Drift mem k (f k a))
    (as : List α) : ∀ k, Drift mem k (as.foldl f k) := by
  induction as with
  | nil => exact refl
  | cons a as ih => exact fun k => (h k a).trans (ih _)

/-- A mild change of one task. -/
theorem setTask {i : Slot} {t : Task} (h : Mild (k.tasks i) t)
    (hs : mem ∨ (t.pml4Phys = (k.tasks i).pml4Phys ∧ t.kstack = (k.tasks i).kstack)) :
    Drift mem k (k.setTask i t) := by
  have key (Q : Slot → Task → Prop) (hi : Q i t) (hq : ∀ j, Q j (k.tasks j)) (j : Slot) :
      Q j (update k.tasks i t j) := by
    by_cases hj : j = i
    · subst hj
      rwa [update_self]
    · rw [update_of_ne hj]
      exact hq j
  refine of_tasks (key (fun j t => Mild (k.tasks j) t) h fun _ => Mild.refl _) rfl rfl rfl ?_
  exact hs.imp_right fun hs =>
    ⟨rfl, key (fun j t => t.pml4Phys = (k.tasks j).pml4Phys) hs.1 fun _ => rfl,
      key (fun j t => t.kstack = (k.tasks j).kstack) hs.2 fun _ => rfl⟩

/-- New descriptors for one task. -/
theorem setFds (i : Slot) (fds : Fd → File) :
    Drift mem k (k.modTask i fun t => { t with fds := fds }) :=
  setTask ⟨rfl, rfl, rfl, rfl, rfl, Or.inl rfl, fun _ => rfl, fun _ _ h => h⟩ (Or.inr ⟨rfl, rfl⟩)

/-- A pipe that stays steady. -/
theorem setPipe {p : Nat} {q' : Pipe} (h : ∀ q, k.pipes p = some q → Steady q q')
    (hv : Rings k → q'.Valid pipeSize) : Drift mem k (k.setPipe p (some q')) where
  tasks := fun _ => Mild.refl _
  current := rfl
  nextPid := rfl
  pipes := fun p' q hq => by
    refine Or.inl ?_
    by_cases hp : p' = p
    · subst hp
      exact ⟨q', update_self .., h q hq⟩
    · exact ⟨q, (update_of_ne hp ..).trans hq, Steady.refl q⟩
  rings := fun hr => hr.setPipe fun q hq => Option.some.inj hq ▸ hv hr
  space := Or.inr ⟨rfl, fun _ => rfl, fun _ => rfl⟩

end Drift

section Functions

variable {mem : Prop} {k : Kernel}

theorem wake_of_waits {t : Task} (h : Waits t) : t.wake.state = .ready := by
  unfold Task.wake
  rw [if_pos (show t.state = .blocked ∧ t.zombie = false from h)]

theorem wake_pml4Phys (t : Task) : t.wake.pml4Phys = t.pml4Phys := by
  unfold Task.wake
  split <;> rfl

theorem wake_kstack (t : Task) : t.wake.kstack = t.kstack := by
  unfold Task.wake
  split <;> rfl

theorem schedWake_drift (i : Slot) : Drift mem k (schedWake k i) :=
  Drift.setTask (Mild.wake _) (Or.inr ⟨wake_pml4Phys _, wake_kstack _⟩)

theorem wakeOn_pml4Phys (p : Nat) (t : Task) : (t.wakeOn p).pml4Phys = t.pml4Phys := by
  unfold Task.wakeOn
  split
  · exact wake_pml4Phys _
  · rfl

theorem wakeOn_kstack (p : Nat) (t : Task) : (t.wakeOn p).kstack = t.kstack := by
  unfold Task.wakeOn
  split
  · exact wake_kstack _
  · rfl

theorem pipeWake_drift (p : Nat) : Drift mem k (pipeWake k p) :=
  Drift.of_tasks (fun _ => Mild.wakeOn p _) rfl rfl rfl
    (Or.inr ⟨rfl, fun _ => wakeOn_pml4Phys p _, fun _ => wakeOn_kstack p _⟩)

theorem pipeWake_unwatched (p : Nat) : Unwatched (pipeWake k p) p := by
  intro i hw hp
  have hm : Mild (k.tasks i) ((k.tasks i).wakeOn p) := Mild.wakeOn p _
  have hbefore : Waits (k.tasks i) ∧ (k.tasks i).waitPipe = some p :=
    ⟨hm.waits hw, (hm.waitPipe hw).symm.trans hp⟩
  have hready : ((k.tasks i).wakeOn p).state = .ready := by
    unfold Task.wakeOn
    rw [if_pos ⟨hbefore.1.1, hbefore.2⟩]
    exact wake_of_waits hbefore.1
  have hblocked : ((k.tasks i).wakeOn p).state = .blocked := hw.1
  rw [hready] at hblocked
  cases hblocked

theorem raiseSigint_pml4Phys (fg : Int) (t : Task) :
    (t.raiseSigint fg).pml4Phys = t.pml4Phys := by
  unfold Task.raiseSigint
  split
  · rfl
  · split
    · rfl
    · dsimp only
      split
      · exact wake_pml4Phys _
      · rfl

theorem raiseSigint_kstack (fg : Int) (t : Task) : (t.raiseSigint fg).kstack = t.kstack := by
  unfold Task.raiseSigint
  split
  · rfl
  · split
    · rfl
    · dsimp only
      split
      · exact wake_kstack _
      · rfl

theorem raiseSigint_drift : Drift mem k (raiseSigint k) :=
  Drift.of_tasks (fun _ => Mild.raiseSigint _ _) rfl rfl rfl
    (Or.inr ⟨rfl, fun _ => raiseSigint_pml4Phys _ _, fun _ => raiseSigint_kstack _ _⟩)

/-- A new value for a pipe, after which every task parked on it is woken. -/
theorem setPipe_wake_drift (p : Nat) (q : Pipe) (r : Option Pipe)
    (hv : Rings k → ∀ q, r = some q → q.Valid pipeSize) :
    Drift mem k ((pipeWake (k.setPipe p (some q)) p).setPipe p r) where
  tasks := fun i => Mild.wakeOn p _
  current := rfl
  nextPid := rfl
  pipes := fun p' q' hq => by
    by_cases hp : p' = p
    · subst hp
      exact Or.inr (pipeWake_unwatched p')
    · refine Or.inl ⟨q', ?_, Steady.refl q'⟩
      simp only [Kernel.setPipe, pipeWake, update_of_ne hp]
      exact hq
  rings := fun hr => by
    have hset : Rings (k.setPipe p r) := hr.setPipe (hv hr)
    simp only [Rings, Kernel.setPipe, pipeWake, update_idem]
    exact hset
  space := Or.inr ⟨rfl, fun _ => wakeOn_pml4Phys p _, fun _ => wakeOn_kstack p _⟩

theorem pipeWake_setPipe (p : Nat) (q : Pipe) :
    (pipeWake (k.setPipe p (some q)) p).setPipe p (some q) = pipeWake (k.setPipe p (some q)) p := by
  simp only [Kernel.setPipe, pipeWake, update_idem]

theorem transfer_drift (p : Nat) (q : Pipe) (hv : Rings k → q.Valid pipeSize) :
    Drift mem k (pipeWake (k.setPipe p (some q)) p) := by
  rw [← pipeWake_setPipe]
  exact setPipe_wake_drift p q _ fun hr q' hq' => Option.some.inj hq' ▸ hv hr

theorem pipeUnref_drift (p : Nat) (rd wr : Int) : Drift mem k (pipeUnref k p rd wr) := by
  unfold pipeUnref
  split
  · exact Drift.refl k
  next q hq =>
    dsimp only
    split
    · exact setPipe_wake_drift p _ _ fun _ q' hq' => nomatch hq'
    · exact transfer_drift p _ fun hr => hr p q hq

theorem pipeAddRef_drift (p : Nat) {rd wr : Int} (hrd : 0 ≤ rd) (hwr : 0 ≤ wr) :
    Drift mem k (pipeAddRef k p rd wr) := by
  unfold pipeAddRef
  split
  · exact Drift.refl k
  next q hq =>
    refine Drift.setPipe (fun q' hq' => ?_) fun hr => hr p q hq
    obtain rfl := Option.some.inj (hq.symm.trans hq')
    exact ⟨rfl, Int.le_add_of_nonneg_right hrd, Int.le_add_of_nonneg_right hwr⟩

theorem rd_nonneg (f : File) : 0 ≤ f.rd := by
  unfold File.rd
  split <;> decide

theorem wr_nonneg (f : File) : 0 ≤ f.wr := by
  unfold File.wr
  split <;> decide

theorem fdPut_drift (i : Slot) (fd : Fd) : Drift mem k (fdPut k i fd) := by
  unfold fdPut
  dsimp only
  split
  · exact Drift.setFds i _
  · exact (pipeUnref_drift _ _ _).trans (Drift.setFds i _)

theorem fdsRelease_drift (i : Slot) : Drift mem k (fdsRelease k i) :=
  Drift.foldl _ (fun _ fd => fdPut_drift i fd) _ k

theorem fdRef_drift (f : File) : Drift mem k (fdRef k f) := by
  unfold fdRef
  split
  · exact Drift.refl k
  · exact pipeAddRef_drift _ (rd_nonneg f) (wr_nonneg f)

theorem addFdRefs_drift (fds : Fd → File) : Drift mem k (addFdRefs k fds) :=
  Drift.foldl _ (fun _ fd => fdRef_drift (fds fd)) _ k

theorem forkInherit_drift (i : Slot) : Drift mem k (forkInherit k i) := by
  have h : Drift mem k (k.modTask i fun t => { t with
      fds := k.cur.fds
      brkBase := k.cur.brkBase
      brkCur := k.cur.brkCur
      mmapTop := k.cur.mmapTop }) :=
    Drift.setTask ⟨rfl, rfl, rfl, rfl, rfl, Or.inl rfl, fun _ => rfl, fun _ _ h => h⟩
      (Or.inr ⟨rfl, rfl⟩)
  exact h.trans (addFdRefs_drift k.cur.fds)

theorem wakeParent_drift (i : Slot) : Drift mem k (wakeParent k i) := by
  unfold wakeParent
  split
  · exact Drift.refl k
  · exact schedWake_drift _

end Functions

section Descriptors

variable {k : Kernel}

theorem wake_fds (t : Task) : t.wake.fds = t.fds := by
  unfold Task.wake
  split <;> rfl

theorem wakeOn_fds (p : Nat) (t : Task) : (t.wakeOn p).fds = t.fds := by
  unfold Task.wakeOn
  split
  · exact wake_fds _
  · rfl

theorem pipeWake_fds (p : Nat) (i : Slot) : ((pipeWake k p).tasks i).fds = (k.tasks i).fds :=
  wakeOn_fds p _

theorem pipeUnref_fds (p : Nat) (rd wr : Int) (i : Slot) :
    ((pipeUnref k p rd wr).tasks i).fds = (k.tasks i).fds := by
  unfold pipeUnref
  split
  · rfl
  · dsimp only
    split <;> exact wakeOn_fds p _

theorem fdRef_tasks (f : File) : (fdRef k f).tasks = k.tasks := by
  unfold fdRef
  split
  · rfl
  · unfold pipeAddRef
    split <;> rfl

/-- `fd_put` clears one descriptor. -/
theorem fdPut_fds (i : Slot) (fd : Fd) :
    ((fdPut k i fd).tasks i).fds = update (k.tasks i).fds fd File.zero := by
  have hset (k₁ : Kernel) : ((k₁.modTask i fun t => t.setFd fd File.zero).tasks i).fds =
      update (k₁.tasks i).fds fd File.zero := by
    simp only [Kernel.modTask, Kernel.setTask, update_self, Task.setFd]
  unfold fdPut
  dsimp only
  rw [hset]
  split
  · rfl
  · rw [pipeUnref_fds]

theorem fdPut_fds_of_ne {i j : Slot} (fd : Fd) (hj : j ≠ i) :
    ((fdPut k i fd).tasks j).fds = (k.tasks j).fds := by
  unfold fdPut
  dsimp only
  simp only [Kernel.modTask, Kernel.setTask, update_of_ne hj]
  split
  · rfl
  · rw [pipeUnref_fds]

end Descriptors

end Mmix.Sys
