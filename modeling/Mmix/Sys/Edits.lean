import Mmix.Sys.Sane

/-!
# Edits of single tasks

The functions that work on descriptors, pipes and signals only touch the task
table and the pipes. What they do to one task is described for any relation
between a task before and after that the elementary edits respect.
-/

namespace Mmix.Sys

open Mm Fs Proc Kernel

/-- The tasks differ in no field that the scheduler, the users or the user
context are about. -/
structure Unmoved (t t' : Task) : Prop where
  pid : t'.pid = t.pid
  state : t'.state = t.state
  waitPipe : t'.waitPipe = t.waitPipe
  cont : t'.cont = t.cont
  uctx : t'.uctx = t.uctx
  uid : t'.uid = t.uid

/-- A relation between a task before and after some edits, none of which is an
unconditional wake-up. -/
structure Edits (T : Task → Task → Prop) : Prop where
  same : ∀ {t t' : Task}, Unmoved t t' → T t t'
  trans : ∀ {t t' t''}, T t t' → T t' t'' → T t t''
  wakeOn : ∀ p t, T t (t.wakeOn p)
  raiseSigint : ∀ fg t, T t (t.raiseSigint fg)
  clear : ∀ t, T t { t with waitPipe := none }

/-- The relation holds for every slot. -/
def Each (T : Task → Task → Prop) (k k' : Kernel) : Prop := ∀ i, T (k.tasks i) (k'.tasks i)

namespace Each

variable {P : Policy} {T : Task → Task → Prop} {k k' k'' : Kernel}

theorem refl (hT : Edits T) (k : Kernel) : Each T k k :=
  fun _ => hT.same ⟨rfl, rfl, rfl, rfl, rfl, rfl⟩

theorem trans (hT : Edits T) (h : Each T k k') (h' : Each T k' k'') : Each T k k'' :=
  fun i => hT.trans (h i) (h' i)

theorem foldl (hT : Edits T) {α : Type*} (f : Kernel → α → Kernel) (h : ∀ k a, Each T k (f k a))
    (as : List α) : ∀ k, Each T k (as.foldl f k) := by
  induction as with
  | nil => exact refl hT
  | cons a as ih => exact fun k => trans hT (h k a) (ih _)

theorem of_tasks (hT : Edits T) (h : k'.tasks = k.tasks) : Each T k k' := by
  intro i
  rw [h]
  exact hT.same ⟨rfl, rfl, rfl, rfl, rfl, rfl⟩

theorem setTask (hT : Edits T) {i : Slot} {t : Task} (h : T (k.tasks i) t) :
    Each T k (k.setTask i t) :=
  forall_setTask (Q := fun j t => T (k.tasks j) t) h fun _ _ => hT.same ⟨rfl, rfl, rfl, rfl, rfl, rfl⟩

theorem schedWake (hT : Edits T) {i : Slot} (h : T (k.tasks i) (k.tasks i).wake) :
    Each T k (schedWake k i) := setTask hT h

theorem pipeWake (hT : Edits T) (p : Nat) : Each T k (pipeWake k p) := fun _ => hT.wakeOn p _

theorem pipeUnref (hT : Edits T) (p : Nat) (rd wr : Int) : Each T k (pipeUnref k p rd wr) := by
  unfold Proc.pipeUnref
  split
  · exact refl hT k
  · dsimp only
    split <;> exact fun _ => hT.wakeOn p _

theorem fdPut (hT : Edits T) (i : Slot) (fd : Fd) : Each T k (fdPut k i fd) := by
  unfold Sys.fdPut
  dsimp only
  split
  · exact setTask hT (hT.same ⟨rfl, rfl, rfl, rfl, rfl, rfl⟩)
  · exact trans hT (pipeUnref hT _ _ _) (setTask hT (hT.same ⟨rfl, rfl, rfl, rfl, rfl, rfl⟩))

theorem fdsRelease (hT : Edits T) (i : Slot) : Each T k (fdsRelease k i) :=
  foldl hT _ (fun _ fd => fdPut hT i fd) _ k

theorem forkInherit (hT : Edits T) (i : Slot) : Each T k (forkInherit k i) := by
  have hedit : Each T k (k.modTask i fun t => { t with
      fds := k.cur.fds
      brkBase := k.cur.brkBase
      brkCur := k.cur.brkCur
      mmapTop := k.cur.mmapTop }) := setTask hT (hT.same ⟨rfl, rfl, rfl, rfl, rfl, rfl⟩)
  exact trans hT hedit (foldl hT _ (fun _ fd => of_tasks hT (fdRef_tasks (k.cur.fds fd))) _ _)

theorem postSig (hT : Edits T) (i : Slot) (sig : Sig) : Each T k (postSig k i sig) := by
  have hsig : Each T k (k.modTask i fun t => t.addSig sig) :=
    setTask hT (hT.same ⟨rfl, rfl, rfl, rfl, rfl, rfl⟩)
  unfold Sys.postSig
  split
  · exact hsig
  · exact trans hT hsig (pipeWake hT _)

theorem slay (hT : Edits T) (i : Slot) (status : Int) : Each T k (slay k i status) :=
  setTask hT (hT.same ⟨rfl, rfl, rfl, rfl, rfl, rfl⟩)

/-- The end of a task wakes its parent. -/
theorem markZombie (hT : Edits T) {i : Slot} (status : Int)
    (hwake : ∀ t : Task, t.pid = (k.tasks i).parentPid → T t t.wake) :
    Each T k (markZombie k i status) := by
  refine trans hT (slay hT i status) ?_
  show Each T (Sys.slay k i status) (Sys.wakeParent (Sys.slay k i status) i)
  unfold wakeParent
  split
  · exact refl hT _
  next j hfind =>
    refine schedWake hT (hwake _ ?_)
    rw [(schedFindPid_some hfind).2, slay_self]

theorem wake_of_zombie {t : Task} (h : t.zombie = true) : t.wake = t := by
  unfold Task.wake
  rw [if_neg fun hw => absurd (h.symm.trans hw.2) (by decide)]

theorem killParked (hT : Edits T) {i : Slot}
    (hwake : ∀ t : Task, t.pid = (k.tasks i).parentPid → T t t.wake) :
    Each T k (killParked k i) := by
  refine trans hT (markZombie hT (-(sigKill.val : Int)) hwake) ?_
  have hz := markZombie_zombie (k := k) i (-(sigKill.val : Int))
  unfold Sys.killParked
  dsimp only
  split
  next p _ => exact trans hT (setTask hT (hT.clear _)) (pipeWake hT p)
  next =>
    refine schedWake hT ?_
    rw [wake_of_zombie hz]
    exact hT.same ⟨rfl, rfl, rfl, rfl, rfl, rfl⟩

theorem alike (hT : Edits T) {t t' : Task} (h : Alike t t')
    (huid : (∀ (t : Task) uid, T t { t with uid := uid }) ∨ t'.uid = t.uid) : T t t' := by
  rcases huid with hset | huid
  · have hsame : T t { t' with uid := t.uid } :=
      hT.same ⟨h.pid, h.state, h.waitPipe, h.cont, h.uctx, rfl⟩
    exact hT.trans hsame (hset _ t'.uid)
  · exact hT.same ⟨h.pid, h.state, h.waitPipe, h.cont, h.uctx, huid⟩

/-- Outside `rudo`, a change wakes a task only through its pipe. -/
theorem change (hT : Edits T) (hwake : P.roles → ∀ t : Task, T t t.wake)
    (huser : P.roles → ∀ (t : Task) uid, T t { t with uid := uid }) (h : Change P k k') :
    Each T k k' := by
  cases h with
  | frame _ htasks => exact of_tasks hT htasks
  | memory => exact of_tasks hT rfl
  | edit i t ht _ huid => exact setTask hT (alike hT ht (huid.imp_left huser))
  | exec _ t ht huid => exact setTask hT (alike hT ht (Or.inr huid))
  | file fd f => exact setTask hT (hT.same ⟨rfl, rfl, rfl, rfl, rfl, rfl⟩)
  | close fd => exact fdPut hT _ fd
  | share old new =>
    have hset : Each T k (k.modCur fun t => t.setFd new (k.cur.fds old)) :=
      setTask hT (hT.same ⟨rfl, rfl, rfl, rfl, rfl, rfl⟩)
    exact trans hT hset (of_tasks hT (fdRef_tasks _))
  | newPipe p rd wr =>
    have hpipe : Each T k (k.setPipe p (some pipeCreate)) := of_tasks hT rfl
    exact trans hT hpipe (setTask hT (hT.same ⟨rfl, rfl, rfl, rfl, rfl, rfl⟩))
  | wakeAll p => exact pipeWake hT p
  | transfer p q q' =>
    have hpipe : Each T k (k.setPipe p (some q')) := of_tasks hT rfl
    exact trans hT hpipe (pipeWake hT p)
  | wake i hroles => exact schedWake hT (hwake hroles _)
  | inherit i => exact forkInherit hT i
  | signal i sig => exact postSig hT i sig
  | signalSelf sig => exact setTask hT (hT.same ⟨rfl, rfl, rfl, rfl, rfl, rfl⟩)
  | clearWait => exact setTask hT (hT.clear _)
  | sigint => exact fun _ => hT.raiseSigint _ _

end Each

/-- Nothing but the task table and the pipes has changed. -/
def OnlyTables (k k' : Kernel) : Prop := k' = { k with tasks := k'.tasks, pipes := k'.pipes }

namespace OnlyTables

variable {k k' k'' : Kernel}

theorem refl (k : Kernel) : OnlyTables k k := rfl

theorem trans (h : OnlyTables k k') (h' : OnlyTables k' k'') : OnlyTables k k'' := by
  unfold OnlyTables at *
  rw [h', h]

theorem cpu (h : OnlyTables k k') : k'.cpu = k.cpu := by rw [h]

theorem current (h : OnlyTables k k') : k'.current = k.current := by rw [h]

theorem rudo (h : OnlyTables k k') : k'.rudo = k.rudo := by rw [h]

theorem foldl {α : Type*} (f : Kernel → α → Kernel) (h : ∀ k a, OnlyTables k (f k a))
    (as : List α) : ∀ k, OnlyTables k (as.foldl f k) := by
  induction as with
  | nil => exact refl
  | cons a as ih => exact fun k => (h k a).trans (ih _)

theorem pipeWake (p : Nat) : OnlyTables k (pipeWake k p) := rfl

theorem pipeUnref (p : Nat) (rd wr : Int) : OnlyTables k (pipeUnref k p rd wr) := by
  unfold Proc.pipeUnref
  split
  · exact refl k
  · dsimp only
    split <;> rfl

theorem fdPut (i : Slot) (fd : Fd) : OnlyTables k (fdPut k i fd) := by
  unfold Sys.fdPut
  dsimp only
  split
  · rfl
  · exact (pipeUnref _ _ _).trans rfl

theorem fdsRelease (i : Slot) : OnlyTables k (fdsRelease k i) :=
  foldl _ (fun _ fd => fdPut i fd) _ k

theorem fdRef (f : File) : OnlyTables k (fdRef k f) := by
  unfold Sys.fdRef
  split
  · exact refl k
  · unfold pipeAddRef
    split <;> rfl

theorem setTask (i : Slot) (t : Task) : OnlyTables k (k.setTask i t) := rfl

theorem forkInherit (i : Slot) : OnlyTables k (forkInherit k i) :=
  (setTask i _).trans (foldl _ (fun _ fd => fdRef (k.cur.fds fd)) _ _)

theorem postSig (i : Slot) (sig : Sig) : OnlyTables k (postSig k i sig) := by
  unfold Sys.postSig
  split <;> rfl

theorem wakeParent (i : Slot) : OnlyTables k (wakeParent k i) := by
  unfold Sys.wakeParent
  split <;> rfl

theorem markZombie (i : Slot) (status : Int) : OnlyTables k (markZombie k i status) :=
  (setTask i _).trans (wakeParent i)

theorem killParked (i : Slot) : OnlyTables k (killParked k i) := by
  unfold Sys.killParked
  dsimp only
  split
  · exact (markZombie i _).trans rfl
  · exact (markZombie i _).trans rfl

end OnlyTables

/-- What a change does to the global variables: only a policy admits a change of
the `rudo` queue or of the user context in force. -/
theorem Change.globals {P : Policy} {k k' : Kernel} (h : Change P k k') :
    (P.roles ∨ k'.rudo = k.rudo) ∧ (P.ctx ∨ k'.cpu = k.cpu) ∧ k'.current = k.current := by
  have htables (hk : OnlyTables k k') :
      (P.roles ∨ k'.rudo = k.rudo) ∧ (P.ctx ∨ k'.cpu = k.cpu) ∧ k'.current = k.current :=
    ⟨Or.inr hk.rudo, Or.inr hk.cpu, hk.current⟩
  cases h with
  | frame _ _ hcur _ _ _ hrudo hcpu => exact ⟨hrudo, hcpu, hcur⟩
  | memory => exact ⟨Or.inr rfl, Or.inr rfl, rfl⟩
  | close fd => exact htables (OnlyTables.fdPut _ fd)
  | share old new => exact htables ((OnlyTables.setTask _ _).trans (OnlyTables.fdRef _))
  | inherit i => exact htables (OnlyTables.forkInherit i)
  | signal i sig => exact htables (OnlyTables.postSig i sig)
  | _ => exact ⟨Or.inr rfl, Or.inr rfl, rfl⟩

end Mmix.Sys
