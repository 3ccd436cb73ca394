import Mmix.Sys.Sane

/-!
# Steps as sequences of moves

Each function of the kernel is taken apart into moves. What a policy has to
allow is what the event in question does, so a step that the policy allows is
a sequence of moves under that policy.
-/

namespace Mmix.Sys

open Mm Fs Proc Kernel Function

variable {P : Policy} {k k' k'' : Kernel}

section Basic

theorem Change.moves (h : Change P k k') : Moves P k k' := Relation.ReflTransGen.single (.change h)

theorem Turn.moves (h : Turn P k k') : Moves P k k' := Relation.ReflTransGen.single (.turn h)

/-- The task in the slot is a user task that may go on. -/
def Policy.Acts (P : Policy) (i : Slot) : Prop := i ≠ 0 ∧ P.actor i

/-- The current task is a user task that runs kernel code. -/
structure Active (P : Policy) (k : Kernel) : Prop where
  acts : P.Acts k.current
  park : Parks k.cur.cont = false

theorem Active.of_drift {mem : Prop} (h : Active P k) (hd : Drift mem k k') : Active P k' :=
  ⟨by rw [hd.current]; exact h.acts, by rw [hd.cur.cont]; exact h.park⟩

theorem goto_moves (h : P.Acts k.current) {c : Cont} (hc : Plain c = true) :
    Moves P k (k.goto c) :=
  (Turn.goto c k.cur.rax k.intr (fun h0 => absurd h0 h.1) (parks_of_plain hc)
    (rudo_of_plain hc) h.2).moves

theorem finish_moves (h : P.Acts k.current) (r : Int) : Moves P k (k.finish r) :=
  (Turn.goto .user r true (fun h0 => absurd h0 h.1) rfl rfl h.2).moves

/-- A change, after which the call returns. -/
theorem Change.finish (hc : Change P k k') (h : P.Acts k.current) (r : Int) :
    Moves P k (k'.finish r) :=
  hc.moves.trans (finish_moves (by rw [hc.drift.current]; exact h) r)

/-- An edit of the current task. -/
theorem editCur {f : Task → Task}
    (h : ∀ t, Alike t (f t) ∧ (f t).pml4Phys = t.pml4Phys ∧ (f t).uid = t.uid) :
    Change P k (k.modCur f) :=
  .edit k.current _ (h _).1 (h _).2.1 (Or.inr (h _).2.2)

theorem modCur_cur (f : Task → Task) : (k.modCur f).cur = f k.cur := update_self ..

theorem goto_cont (c : Cont) : (k.goto c).cur.cont = c := congrArg Task.cont (modCur_cur _)

/-- The current task after the call has returned. -/
theorem finish_cur (k : Kernel) (r : Int) :
    (k.finish r).cur = { k.cur with cont := .user, rax := r } :=
  modCur_cur (k := k) fun t => { t with cont := .user, rax := r }

theorem finish_rax (r : Int) : (k.finish r).cur.rax = r :=
  congrArg Task.rax (modCur_cur (k := k) fun t => { t with cont := .user, rax := r })

theorem yield_moves {c : Cont} (hidle : k.current = 0 → Idles c) (hc : Plain c = true)
    (ha : P.actor k.current) : Moves P k (schedYield (k.goto c)) := by
  refine (Turn.goto c k.cur.rax k.intr hidle (parks_of_plain hc)
    (rudo_of_plain hc) ha).moves.trans (Turn.yield ?_).moves
  exact (congrArg Parks (goto_cont c)).trans (parks_of_plain hc)

theorem preempt_moves {c : Cont} (hidle : k.current = 0 → Idles c) (hc : Plain c = true)
    (ha : P.actor k.current) : Moves P k (preempt k c) := by
  unfold preempt
  split
  · have hframe : Change P k { k with resched := false } :=
      .frame _ rfl rfl rfl rfl rfl (Or.inr rfl) (Or.inr rfl)
    exact hframe.moves.trans (yield_moves hidle hc ha)
  · exact (Turn.goto c k.cur.rax k.intr hidle (parks_of_plain hc) (rudo_of_plain hc) ha).moves

end Basic

section Signals

theorem terminateCurrent_moves (h : Active P k) (hP : P.term k.cur.pid k.cur.parentPid) (sig : Sig) :
    Moves P k (terminateCurrent k sig) := by
  have hd : Drift False (slay k k.current (-(sig.val : Int)))
      (fdsRelease (markZombie k k.current (-(sig.val : Int))) k.current) :=
    (markZombie_drift _ _).trans (fdsRelease_drift _)
  have hcur := hd.current
  refine (Turn.terminate (-(sig.val : Int)) h.acts.1 h.park hP).moves.trans
    (yield_moves (fun h0 => ?_) rfl ?_)
  · exact absurd (hcur.symm.trans h0) h.acts.1
  · exact (hcur.symm ▸ h.acts.2 : P.actor (fdsRelease _ _).current)

theorem clearSig_change (sig : Sig) : Change P k (k.modCur fun t => clearSig t sig) := by
  refine .edit k.current _ ⟨rfl, rfl, rfl, rfl, rfl, rfl, rfl, rfl, rfl, fun hs => ?_, rfl⟩ rfl
    (Or.inr rfl)
  simp only [clearSig, hs]
  exact BitVec.zero_and

/-- Delivering signals edits the current task, or ends it. -/
theorem deliverLoop_moves (fuel : Nat) (h : Active P k) (hctx : P.ctx)
    (hP : doomedLoop fuel k.cur = true → P.term k.cur.pid k.cur.parentPid) :
    Moves P k (deliverLoop fuel k).2 ∧
      ((deliverLoop fuel k).1 = true → Drift False k (deliverLoop fuel k).2) := by
  induction fuel generalizing k with
  | zero => exact ⟨.refl, fun _ => Drift.refl k⟩
  | succ fuel ih =>
    unfold doomedLoop at hP
    unfold deliverLoop
    split
    · exact ⟨.refl, fun _ => Drift.refl k⟩
    next sig hsig =>
      rw [hsig] at hP
      have hclear : Change { P with mem := False } k
        (k.modCur fun t => clearSig t sig) := clearSig_change sig
      have hd : Drift False k (k.modCur fun t => clearSig t sig) := hclear.drift
      have hcur : (k.modCur fun t => clearSig t sig).cur = clearSig k.cur sig := modCur_cur _
      have hgo (hP' : doomedLoop fuel (clearSig k.cur sig) = true →
            P.term k.cur.pid k.cur.parentPid) :
          Moves P k (deliverLoop fuel (k.modCur fun t => clearSig t sig)).2 ∧
          ((deliverLoop fuel (k.modCur fun t => clearSig t sig)).1 = true →
            Drift False k (deliverLoop fuel (k.modCur fun t => clearSig t sig)).2) := by
        have hrec := ih (h.of_drift hd) (by rw [hcur]; exact hP')
        exact ⟨(clearSig_change sig).moves.trans hrec.1, fun ht => hd.trans (hrec.2 ht)⟩
      dsimp only at hP ⊢
      split
      next hign =>
        rw [if_pos hign] at hP
        exact hgo hP
      next hign =>
        rw [if_neg hign] at hP
        split
        next hdfl =>
          rw [if_pos hdfl] at hP
          split
          next hfatal =>
            rw [if_pos hfatal] at hP
            exact ⟨terminateCurrent_moves h (hP rfl) sig, fun h => Bool.noConfusion h⟩
          next hfatal =>
            rw [if_neg hfatal] at hP
            exact hgo hP
        next =>
          refine ⟨.tail (clearSig_change sig).moves
            (.change (.frame _ rfl rfl rfl rfl rfl (Or.inr rfl) (Or.inl hctx))),
            fun _ => hd.trans ?_⟩
          exact Drift.of_tasks (fun _ => Mild.refl _) rfl rfl rfl
            (Or.inr ⟨rfl, fun _ => rfl, fun _ => rfl⟩)

theorem syscallEnter_moves (h : Active P k) (hctx : P.ctx)
    (hP : Doomed k.cur → P.term k.cur.pid k.cur.parentPid)
    (c : Call) : Moves P k (syscallEnter k c) := by
  have hdeliver := deliverLoop_moves (P := P) 33 h hctx hP
  unfold syscallEnter
  by_cases hs : k.cur.sigPending = 0
  · rw [if_pos hs]
    exact preempt_moves (fun h0 => absurd h0 h.acts.1) rfl h.acts.2
  · rw [if_neg hs]
    unfold deliverSignals
    split
    next k' he =>
      rw [he] at hdeliver
      exact hdeliver.1
    next k' he =>
      rw [he] at hdeliver
      have hactive := h.of_drift (hdeliver.2 rfl)
      exact hdeliver.1.trans (preempt_moves (fun h0 => absurd h0 hactive.acts.1) rfl
        hactive.acts.2)

theorem fdAlloc_pipe {t : Task} {fd : Fd} (h : fdAlloc t = some fd) : (t.fds fd).pipe = none := by
  unfold fdAlloc at h
  have hfree := List.find?_some h
  exact (Decidable.of_not_not (of_decide_eq_true hfree)).2.1

end Signals

section Files

theorem vfsDone_moves (h : P.Acts k.current) (fd : Fd) (r : Int) : Moves P k (vfsDone k fd r) := by
  unfold vfsDone
  split
  · exact (Change.file fd { k.cur.fds fd with
      pos := (k.cur.fds fd).pos + BitVec.ofInt 64 r } rfl fun _ => rfl).finish h r
  · exact finish_moves h r

theorem sysOpen_moves (h : P.Acts k.current) (pathNull : Bool) (node : Option Node) (append : Bool)
    (size : Word) : Moves P k (sysOpen k pathNull node append size) := by
  unfold sysOpen
  split
  · exact finish_moves h _
  · exact finish_moves h _
  · split
    · exact finish_moves h _
    · split
      · exact finish_moves h _
      next fd hfd =>
        exact (Change.file fd _ (fdAlloc_pipe hfd).symm fun hne => absurd rfl hne).finish h _

theorem sysClose_moves (h : Active P k) (fd : Word) : Moves P k (sysClose k fd) := by
  unfold sysClose
  split
  · exact finish_moves h.acts _
  next fd _ => exact (Change.close fd h.park).finish h.acts _

theorem sysRead_moves (h : P.Acts k.current) (fd : Word) (bufNull : Bool) (count : Word) (r : Int) :
    Moves P k (sysRead k fd bufNull count r) := by
  unfold sysRead
  split
  · exact finish_moves h _
  · dsimp only
    split
    · exact finish_moves h _
    · split
      · exact goto_moves h rfl
      · exact finish_moves h _
      · exact vfsDone_moves h _ _
      · split
        · split
          · exact goto_moves h rfl
          · exact goto_moves h rfl
        · split
          · exact goto_moves h rfl
          · split
            · exact finish_moves h _
            · exact vfsDone_moves h _ _

theorem sysWrite_moves (h : P.Acts k.current) (fd : Word) (bufNull : Bool) (data : List UInt8)
    (r : Int) : Moves P k (sysWrite k fd bufNull data r) := by
  unfold sysWrite
  split
  · exact finish_moves h _
  · dsimp only
    split
    · exact finish_moves h _
    · split
      · exact finish_moves h _
      · exact finish_moves h _
      · split
        · split
          · exact goto_moves h rfl
          · exact goto_moves h rfl
        · split
          · exact finish_moves h _
          · split
            · exact finish_moves h _
            · exact vfsDone_moves h _ _

theorem doDup2_moves (h : Active P k) (oldfd newfd : Int) : Moves P k (doDup2 k oldfd newfd) := by
  unfold doDup2
  split
  · exact finish_moves h.acts _
  · exact finish_moves h.acts _
  next old new _ _ =>
    split
    · exact finish_moves h.acts _
    · -- The target slot is emptied first, if it is in use.
      have hput : ∃ k₁, (if (k.cur.fds new).InUse then fdPut k k.current new else k) = k₁ ∧
          Moves P k k₁ ∧ Drift False k k₁ ∧ (k₁.cur.fds new).pipe = none := by
        refine ⟨_, rfl, ?_⟩
        split
        · have hd : Drift False k (fdPut k k.current new) := fdPut_drift _ _
          refine ⟨(Change.close new h.park).moves, hd, ?_⟩
          unfold Kernel.cur
          rw [hd.current, fdPut_fds, update_self]
          rfl
        next hfree => exact ⟨.refl, Drift.refl k, (Decidable.of_not_not hfree).2.1⟩
      obtain ⟨k₁, he, hm, hd, hnone⟩ := hput
      rw [he]
      have hshare : Change P k₁ (shareFd k₁ new (k₁.cur.fds old)) :=
        .share old new (h.of_drift hd).park hnone
      exact hm.trans (hshare.finish (h.of_drift hd).acts new.val)

theorem sysDup_moves (h : Active P k) (fd : Word) : Moves P k (sysDup k fd) := by
  unfold sysDup
  split
  · exact finish_moves h.acts _
  · exact finish_moves h.acts _
  · exact doDup2_moves h _ _

/-- A pipe that was created and dropped at once only wakes tasks. -/
theorem pipeUnref_create {p : Nat} (hp : k.pipes p = none) :
    pipeUnref (k.setPipe p (some pipeCreate)) p 1 1 = pipeWake k p := by
  unfold pipeUnref
  simp only [Kernel.setPipe, update_self, pipeDrop, pipeCreate, pipeWake,
    update_idem]
  rw [if_pos (by decide)]
  have hpipes : update k.pipes p none = k.pipes := by
    rw [← hp, update_eq_self]
  rw [hpipes]

/-- The two steps in which `sys_pipe` fills the slots amount to one. -/
theorem installPipe_eq (p : Nat) (rd wr : Fd) :
    (((k.setPipe p (some pipeCreate)).modCur fun t =>
      t.setFd rd { File.zero with pipe := some p }).modCur fun t =>
      t.setFd rd { t.fds rd with flags := fdfPipeRd }).modCur (fun t =>
      t.setFd wr { File.zero with pipe := some p, flags := fdfPipeWr }) =
    installPipe k p rd wr := by
  simp only [installPipe, pipeEnd, Kernel.modCur, Kernel.modTask, Kernel.setTask, Kernel.setPipe,
    Task.setFd, update_self, update_idem]

/-- The first slot, filled and cleared again. -/
theorem installPipe_undo (p : Nat) (rd : Fd) :
    ((k.setPipe p (some pipeCreate)).modCur fun t =>
      t.setFd rd { File.zero with pipe := some p }).modCur (fun t => t.setFd rd File.zero) =
    (k.modCur fun t => t.setFd rd File.zero).setPipe p (some pipeCreate) := by
  simp only [Kernel.modCur, Kernel.modTask, Kernel.setTask, Kernel.setPipe, Task.setFd,
    update_self, update_idem]

theorem sysPipe_moves (h : Active P k) (hP : P.pipe k.cur) {block : Option Nat}
    (hs : sysPipe k block = some k') : Moves P k k' := by
  unfold sysPipe at hs
  split at hs
  · cases hs
    exact finish_moves h.acts _
  next p =>
    split at hs
    · cases hs
    next hp =>
      have hnone : k.pipes p = none := by
        cases hq : k.pipes p with
        | none => rfl
        | some q => simp [hq] at hp
      dsimp only at hs
      split at hs
      · cases hs
        rw [pipeUnref_create hnone]
        exact (Change.wakeAll p).finish h.acts _
      next rd hrd =>
        have hrd' : (k.cur.fds rd).pipe = none := fdAlloc_pipe hrd
        split at hs
        · cases hs
          have hclear : Change P k (k.modCur fun t => t.setFd rd File.zero) :=
            .file rd File.zero hrd'.symm fun hne => absurd rfl hne
          rw [installPipe_undo,
            pipeUnref_create (show (k.modCur fun t => t.setFd rd File.zero).pipes p = none from hnone)]
          have hactive := h.of_drift hclear.drift
          exact hclear.moves.trans ((Change.wakeAll p).finish hactive.acts _)
        next wr hwr =>
          cases hs
          have hwr' := fdAlloc_pipe hwr
          rw [modCur_cur] at hwr'
          have hne : wr ≠ rd := by
            rintro rfl
            simp only [Task.setFd, update_self] at hwr'
            cases hwr'
          simp only [Task.setFd, update_of_ne hne] at hwr'
          rw [installPipe_eq]
          exact (Change.newPipe p rd wr hnone hne.symm hrd' hwr' hP h.park).finish h.acts _

end Files

section Processes

theorem sysExit_moves (h : Active P k) (hP : P.exit k.cur) (status : Word) :
    Moves P k (sysExit k status) := by
  have hd : Drift False (slay k k.current (toInt status))
      (markZombie k k.current (toInt status)) := markZombie_drift _ _
  refine (Turn.die (toInt status) h.acts.1 hP h.park).moves.trans
    (yield_moves (fun h0 => ?_) rfl ?_)
  · exact absurd (hd.current.symm.trans h0) h.acts.1
  · exact (hd.current.symm ▸ h.acts.2 : P.actor (markZombie _ _ _).current)

theorem sysSignal_moves (h : P.Acts k.current) (sig handler : Word) :
    Moves P k (sysSignal k sig handler) := by
  unfold sysSignal
  split
  · exact finish_moves h _
  · split
    · exact finish_moves h _
    · refine (editCur fun t => ?_).finish h _
      exact ⟨⟨rfl, rfl, rfl, rfl, rfl, rfl, rfl, rfl, rfl, id, rfl⟩, rfl, rfl⟩

theorem sysKill_moves (h : Active P k) (hs : Sane k) (hctx : P.ctx) (pid sig : Word)
    (hP : ∀ i, sigIndex sig = some sigKill → schedFindPid k (toInt pid) = some i →
      (k.tasks i).pid ≠ 0 → i ≠ k.current → P.kill (k.tasks i))
    (hterm : ∀ s, sigIndex sig = some s → schedFindPid k (toInt pid) = some k.current →
      Doomed (k.cur.addSig s) → P.term k.cur.pid k.cur.parentPid) :
    Moves P k (sysKill k pid sig) := by
  unfold sysKill
  split
  · exact finish_moves h.acts _
  · exact finish_moves h.acts _
  next sig' i hsig hfind =>
    split
    · exact finish_moves h.acts _
    next hpid =>
      have hi0 : i ≠ 0 := by
        rintro rfl
        exact hpid hs.idle_pid
      have hlive : (k.tasks i).state ≠ .free := (schedFindPid_some hfind).1
      have htask : (k.modTask i fun t => t.addSig sig').tasks i = (k.tasks i).addSig sig' :=
        update_self ..
      dsimp only
      by_cases hc : i = k.current
      · -- A signal to the caller itself is delivered at once.
        subst hc
        have hself : Change P k (k.modCur fun t => t.addSig sig') :=
          .signalSelf sig' hs.running h.park
        have hactive := h.of_drift hself.drift
        have hcur : (k.modCur fun t => t.addSig sig').cur = k.cur.addSig sig' := modCur_cur _
        obtain ⟨hm, hd⟩ := deliverLoop_moves (P := P) 33 hactive hctx
          (by rw [hcur]; exact hterm sig' hsig hfind)
        rw [if_pos (show k.current = (k.modTask k.current fun t => t.addSig sig').current from rfl)]
        unfold deliverSignals
        change Moves P _ (deliverLoop 33 (k.modTask k.current fun t => t.addSig sig')).2 at hm
        change (deliverLoop 33 (k.modTask k.current fun t => t.addSig sig')).1 = true →
          Drift False _ (deliverLoop 33 (k.modTask k.current fun t => t.addSig sig')).2 at hd
        split
        next k₁ he =>
          rw [he] at hm hd
          exact hself.moves.trans (hm.trans (finish_moves (hactive.of_drift (hd rfl)).acts _))
        next k₁ he =>
          rw [he] at hm
          exact hself.moves.trans hm
      · rw [if_neg (show i ≠ (k.modTask i fun t => t.addSig sig').current from hc)]
        split
        next hkill =>
          obtain ⟨rfl, -⟩ := hkill
          have hturn : Turn P k (killParked (k.modTask i fun t => t.addSig sigKill) i) :=
            .kill i hi0 hc hlive (hP i hsig hfind hpid hc) h.park
          have hd : Drift False (slay (k.modTask i fun t => t.addSig sigKill) i _)
            (killParked (k.modTask i fun t => t.addSig sigKill) i) := killParked_drift i
          refine hturn.moves.trans (finish_moves ?_ _)
          rw [hd.current]
          exact h.acts
        next =>
          have hpost : Change P k (postSig k i sig') := .signal i sig' hc
          have hfin := hpost.finish h.acts 0
          unfold postSig at hfin
          have hpipe : ((k.modTask i fun t => t.addSig sig').tasks i).waitPipe =
              (k.tasks i).waitPipe := by rw [htask]; rfl
          rw [hpipe]
          cases hw : (k.tasks i).waitPipe with
          | none => simpa only [hw] using hfin
          | some p => simpa only [hw] using hfin

theorem sysSetpgid_moves (h : P.Acts k.current) (pid pgid : Word) :
    Moves P k (sysSetpgid k pid pgid) := by
  unfold sysSetpgid
  split
  · exact finish_moves h _
  next i _ =>
    dsimp only
    generalize (if pgid = 0 then (k.tasks i).pid else toInt pgid) = newpgid
    split
    · exact finish_moves h _
    next =>
      have hedit (n : Int) : Change P k (k.modTask i fun t => { t with pgid := n }) :=
        .edit i _ ⟨rfl, rfl, rfl, rfl, rfl, rfl, rfl, rfl, rfl, id, rfl⟩ rfl (Or.inr rfl)
      exact (hedit _).finish h _

theorem sysGetpgid_moves (h : P.Acts k.current) (pid : Word) : Moves P k (sysGetpgid k pid) := by
  unfold sysGetpgid
  split <;> exact finish_moves h _

theorem sysSetsid_moves (h : P.Acts k.current) : Moves P k (sysSetsid k) := by
  unfold sysSetsid
  split
  · exact finish_moves h _
  · refine (editCur fun t => ?_).finish h _
    exact ⟨⟨rfl, rfl, rfl, rfl, rfl, rfl, rfl, rfl, rfl, id, rfl⟩, rfl, rfl⟩

theorem sysTcsetpgrp_moves (h : P.Acts k.current) (pgid : Word) :
    Moves P k (sysTcsetpgrp k pgid) := by
  unfold sysTcsetpgrp
  split
  · exact finish_moves h _
  · have hframe : Change P k { k with fgPgid := pgid.toInt } :=
      .frame _ rfl rfl rfl rfl rfl (Or.inr rfl) (Or.inr rfl)
    exact hframe.finish h _

theorem sysRudoRequest_moves (h : Active P k) (hR : P.roles) (op : Word) :
    Moves P k (sysRudoRequest k op) := by
  unfold sysRudoRequest
  split
  · exact finish_moves h.acts _
  next daemon _ =>
    split
    · exact finish_moves h.acts _
    · have hframe : Change P k { k with rudo := ⟨toInt op, k.cur.pid, true, -1⟩ } :=
        .frame _ rfl rfl rfl rfl rfl (Or.inl hR) (Or.inr rfl)
      have hwake : Change P { k with rudo := ⟨toInt op, k.cur.pid, true, -1⟩ } _ := .wake daemon hR
      have hactive := (h.of_drift hframe.drift).of_drift hwake.drift
      exact hframe.moves.trans (hwake.moves.trans
        (Turn.block _ hactive.acts.1 (.rudo .rudoRequest (Or.inl rfl)) (Or.inl hR) hactive.acts.2
          (Or.inr fun _ => rfl)).moves)

theorem rudoSetuid_moves (hR : P.roles) :
    Moves P k (rudoSetuid k) ∧ (rudoSetuid k).current = k.current := by
  unfold rudoSetuid
  split
  · exact ⟨.tail .refl (.change (.frame _ rfl rfl rfl rfl rfl (Or.inl hR) (Or.inr rfl))), rfl⟩
  next i _ =>
    have hedit : Change P k (k.modTask i fun t => { t with uid := 0 }) :=
      .edit i _ ⟨rfl, rfl, rfl, rfl, rfl, rfl, rfl, rfl, rfl, id, rfl⟩ rfl (Or.inl hR)
    exact ⟨.tail hedit.moves (.change (.frame _ rfl rfl rfl rfl rfl (Or.inl hR) (Or.inr rfl))), rfl⟩

theorem rudoAnswer_moves (hR : P.roles) :
    Moves P k (rudoAnswer k) ∧ (rudoAnswer k).current = k.current := by
  unfold rudoAnswer
  split
  · exact ⟨.refl, rfl⟩
  next i _ => exact ⟨(Change.wake i hR).moves, rfl⟩

theorem rudoWaitRound_moves (h : P.Acts k.current) (hR : P.roles)
    (hP : k.rudo.pending = true → k.rudo.op = rudoOpPanic → P.mem)
    (hs : rudoWaitRound k = some k') : Moves P k k' := by
  unfold rudoWaitRound at hs
  split at hs
  next hpending =>
    have hframe : Change P k { k with rudo := { k.rudo with pending := false } } :=
      .frame _ rfl rfl rfl rfl rfl (Or.inl hR) (Or.inr rfl)
    dsimp only at hs
    split at hs
    next hop =>
      split at hs
      · cases hs
      · cases hs
        have hfault : Change P k { k with
            rudo := { k.rudo with pending := false }, rudoFault := k.rudo.requester } :=
          .frame _ rfl rfl rfl rfl rfl (Or.inl hR) (Or.inr rfl)
        exact hfault.moves.trans ((Change.memory (hP hpending hop) _).finish (by exact h) _)
    next =>
      cases hs
      generalize hk₁ : { k with rudo := { k.rudo with pending := false } } = k₁ at hframe
      have hc₁ : k₁.current = k.current := hk₁ ▸ rfl
      have hset : Moves P k₁ (if k.rudo.op = rudoOpSetuid then rudoSetuid k₁ else k₁) ∧
          (if k.rudo.op = rudoOpSetuid then rudoSetuid k₁ else k₁).current = k₁.current := by
        split
        · exact rudoSetuid_moves hR
        · exact ⟨.refl, rfl⟩
      obtain ⟨hans, hcur⟩ :=
        @rudoAnswer_moves P (if k.rudo.op = rudoOpSetuid then rudoSetuid k₁ else k₁) hR
      refine hframe.moves.trans (hset.1.trans (hans.trans (finish_moves ?_ _)))
      rw [hcur, hset.2, hc₁]
      exact h
  next =>
    cases hs
    exact (Turn.block _ h.1 (.rudo .rudoWait (Or.inr rfl)) (Or.inl hR) h.2
      (Or.inr fun _ => rfl)).moves

end Processes

section Memory

theorem memory_finish (h : P.Acts k.current) (hP : P.mem) (vm : Vm) (r : Int) :
    Moves P k ((k.setVm vm).finish r) :=
  (Change.memory hP vm).finish h r

theorem sysMmap_moves (h : P.Acts k.current) (hP : P.mem) (len : Word) :
    Moves P k (sysMmap k len) := by
  unfold sysMmap
  split
  · exact finish_moves h _
  · dsimp only
    have hedit : Change P k (k.modCur fun t => { t with
        mmapTop := if t.mmapTop = 0 then mmapAreaBase else t.mmapTop }) :=
      editCur fun t => ⟨⟨rfl, rfl, rfl, rfl, rfl, rfl, rfl, rfl, rfl, id, rfl⟩, rfl, rfl⟩
    have h₁ : P.Acts (k.modCur fun t => { t with
        mmapTop := if t.mmapTop = 0 then mmapAreaBase else t.mmapTop }).current := h
    generalize (k.modCur fun t => { t with
      mmapTop := if t.mmapTop = 0 then mmapAreaBase else t.mmapTop }) = k₁ at hedit h₁
    split
    · exact hedit.finish h _
    · split
      · exact hedit.moves.trans (memory_finish h₁ hP _ _)
      next vm _ =>
        refine hedit.moves.trans ((Change.memory hP vm).moves.trans ?_)
        refine (editCur fun t => ?_).finish (by exact h₁) _
        exact ⟨⟨rfl, rfl, rfl, rfl, rfl, rfl, rfl, rfl, rfl, id, rfl⟩, rfl, rfl⟩

theorem sysMunmap_moves (h : P.Acts k.current) (hP : P.mem) (addr len : Word) :
    Moves P k (sysMunmap k addr len) := by
  unfold sysMunmap
  split
  · exact finish_moves h _
  · exact memory_finish h hP _ _

theorem sysBrk_moves (h : P.Acts k.current) (hP : P.mem) (addr : Word) :
    Moves P k (sysBrk k addr) := by
  unfold sysBrk
  split
  · exact finish_moves h _
  · dsimp only
    generalize (if pageUp k.cur.brkCur < pageUp addr then
        (mapFresh k.cur.pml4Phys (pageCount (pageUp k.cur.brkCur) (pageUp addr))
          (pageUp k.cur.brkCur) k.vm).2
      else brkShrink k.cur.pml4Phys (pageCount (pageUp addr) (pageUp k.cur.brkCur))
        (pageUp addr) k.vm) = vm
    refine (Change.memory hP vm).moves.trans ?_
    refine (editCur fun t => ?_).finish (by exact h) _
    exact ⟨⟨rfl, rfl, rfl, rfl, rfl, rfl, rfl, rfl, rfl, id, rfl⟩, rfl, rfl⟩

theorem allocSlot_free {i : Slot} (h : allocSlot k = some i) : (k.tasks i).state = .free := by
  unfold allocSlot at h
  have := List.find?_some h
  exact of_decide_eq_true this

theorem consoleFds_pipe (fd : Fd) : (consoleFds fd).pipe = none := by
  unfold consoleFds
  split
  · rfl
  · split <;> rfl

theorem spawn_moves (hP : P.mem) (hT : P.tasks k.cur) {i : Slot} {t : Task}
    (hfree : (k.tasks i).state = .free) (ht : Fresh k t) (hparent : t.parentPid = k.cur.pid)
    (htasks : k'.tasks = update k.tasks i t) (hcur : k'.current = k.current)
    (hpid : k'.nextPid = k.nextPid + 1) (hpipes : k'.pipes = k.pipes)
    (hrudo : k'.rudo = k.rudo) (hcpu : k'.cpu = k.cpu) : Moves P k k' := by
  have hfresh : Fresh (k.setVm k'.vm) t :=
    ⟨ht.pid, ht.parentPid, ht.state, ht.zombie, ht.noPipes, ht.cont, ht.uid,
      ht.waitPipe⟩
  exact .tail (.tail (Change.memory hP k'.vm).moves (.turn (.spawn hP i t hfree hfresh hparent hT)))
    (.change (.frame k' htasks hcur hpid hpipes rfl (Or.inr hrudo) (Or.inr hcpu)))

theorem spawn_found (hs : Sane k) {i : Slot} {t : Task}
    (hfree : (k.tasks i).state = .free) (ht : Fresh k t) (hparent : t.parentPid = k.cur.pid)
    (htasks : k'.tasks = update k.tasks i t) (hcur : k'.current = k.current)
    (hpid : k'.nextPid = k.nextPid + 1) (hpipes : k'.pipes = k.pipes)
    (hrudo : k'.rudo = k.rudo) (hcpu : k'.cpu = k.cpu) (hready : t.state = .ready) :
    ∃ i, schedFindPid k' k.nextPid = some i ∧ i ≠ k.current ∧ (k'.tasks i).state = .ready ∧
      (k'.tasks i).zombie = false ∧ NoPipes (k'.tasks i) := by
  have hs' := hs.moves (spawn_moves (P := Policy.any) trivial trivial hfree ht hparent htasks hcur
    hpid hpipes hrudo hcpu)
  have hti : k'.tasks i = t := by rw [htasks, update_self]
  refine ⟨i, ?_, ?_, ?_, ?_, ?_⟩
  · have := hs'.toTable.schedFindPid_eq (i := i) (by rw [hti, hready]; decide)
    rwa [hti, ht.pid] at this
  · rintro rfl
    exact hs.cur_live hfree
  · rw [hti, hready]
  · rw [hti, ht.zombie]
  · rw [hti]
    exact ht.noPipes

/-- Spawning a task, and what the table then says about it. -/
theorem schedSpawn_moves (hs : Sane k) (hP : P.mem) (hT : P.tasks k.cur) {parentPid : Int}
    (hparent : parentPid < k.nextPid) (hcur : parentPid = k.cur.pid) (pml4 entry rsp : Word) :
    Moves P k (schedSpawnUserTask k pml4 entry rsp parentPid).2 ∧
      (schedSpawnUserTask k pml4 entry rsp parentPid).2.current = k.current ∧
      (schedSpawnUserTask k pml4 entry rsp parentPid).2.cur = k.cur ∧
      ∀ pid, (schedSpawnUserTask k pml4 entry rsp parentPid).1 = some pid →
        ∃ i, schedFindPid (schedSpawnUserTask k pml4 entry rsp parentPid).2 pid = some i ∧
          i ≠ k.current ∧
          ((schedSpawnUserTask k pml4 entry rsp parentPid).2.tasks i).state = .ready ∧
          ((schedSpawnUserTask k pml4 entry rsp parentPid).2.tasks i).zombie = false ∧
          NoPipes ((schedSpawnUserTask k pml4 entry rsp parentPid).2.tasks i) := by
  unfold schedSpawnUserTask
  split
  · exact ⟨.refl, rfl, rfl, fun pid h => by cases h⟩
  next i halloc =>
    have hfree := allocSlot_free halloc
    have hi : i ≠ k.current := by
      rintro rfl
      exact hs.cur_live hfree
    dsimp only
    split
    next pmm _ =>
      refine ⟨spawn_moves hP hT hfree ?_ hcur rfl rfl rfl rfl rfl rfl, rfl,
        update_of_ne hi.symm .., fun pid h => by cases h⟩
      exact ⟨rfl, hparent, Or.inr rfl, rfl, fun _ => rfl, rfl,
        (by decide : (1000 : BitVec 32) ≠ 0), rfl⟩
    next kstack pmm _ =>
      refine ⟨spawn_moves hP hT hfree ?_ hcur rfl rfl rfl rfl rfl rfl, rfl,
        update_of_ne hi.symm .., fun pid he => ?_⟩
      · exact ⟨rfl, hparent, Or.inl rfl, rfl, consoleFds_pipe, rfl,
          (by decide : (1000 : BitVec 32) ≠ 0), rfl⟩
      · cases he
        refine spawn_found hs hfree ?_ hcur rfl rfl rfl rfl rfl rfl rfl
        exact ⟨rfl, hparent, Or.inl rfl, rfl, consoleFds_pipe, rfl,
          (by decide : (1000 : BitVec 32) ≠ 0), rfl⟩

theorem sysFork_moves (h : Active P k) (hs : Sane k) (hP : P.mem) (hT : P.tasks k.cur) :
    Moves P k (sysFork k) := by
  unfold sysFork
  split
  · exact finish_moves h.acts _
  · split
    next childPml4 vm _ =>
      split
      · exact memory_finish h.acts hP _ _
      · dsimp only
        have hmem : Change P k (k.setVm { vm with cr3 := k.cur.pml4Phys }) := .memory hP _
        have hs₁ := hs.of_drift hmem.drift
        have hlt : k.cur.pid < (k.setVm { vm with cr3 := k.cur.pml4Phys }).nextPid :=
          hs.pid_lt k.current hs.cur_live
        obtain ⟨hm, hc, hcur, hsome⟩ := schedSpawn_moves (P := P) hs₁ hP hT hlt rfl childPml4
          (k.setVm { vm with cr3 := k.cur.pml4Phys }).cpu.rip
          (k.setVm { vm with cr3 := k.cur.pml4Phys }).cpu.rsp
        split
        next k₂ he =>
          change schedSpawnUserTask (k.setVm { vm with cr3 := k.cur.pml4Phys }) childPml4 _ _
            k.cur.pid = _ at he
          rw [he] at hm hc
          exact hmem.moves.trans (hm.trans (memory_finish (by rw [hc]; exact h.acts) hP _ _))
        next pid k₂ he =>
          change schedSpawnUserTask (k.setVm { vm with cr3 := k.cur.pml4Phys }) childPml4 _ _
            k.cur.pid = _ at he
          rw [he] at hm hc hcur hsome
          obtain ⟨i, hfind, hi, hready, hz, hnp⟩ := hsome pid rfl
          rw [hfind]
          have hinherit : Change P k₂ (forkInherit k₂ i) :=
            .inherit i (by rw [hc]; exact hi) (by rw [hready]; decide) hz hnp
              (by rw [hcur]; exact h.park)
          exact hmem.moves.trans (hm.trans (hinherit.finish (by rw [hc]; exact h.acts) _))

theorem sysExecve_moves (h : P.Acts k.current) (hP : P.mem) (hctx : P.ctx) (pathNull : Bool)
    (file : Option FileData) (argv : List (List UInt8)) :
    Moves P k (sysExecve k pathNull file argv) := by
  unfold sysExecve
  split
  · exact finish_moves h _
  · dsimp only
    split
    · exact memory_finish h hP _ _
    next img vm _ =>
      generalize pmapDestroy { vm with cr3 := img.pml4Phys } k.cur.pml4Phys = vm'
      -- First the new address space, then the jump to its entry.
      have hexec : Change P (k.setVm vm') ((k.setVm vm').modCur fun t => { t with
          pml4Phys := img.pml4Phys
          brkBase := img.brkBase + 0x1000
          brkCur := img.brkBase + 0x1000
          mmapTop := 0x50000000 }) :=
        .exec hP _ ⟨rfl, rfl, rfl, rfl, rfl, rfl, rfl, rfl, rfl, id, rfl⟩ rfl
      refine .tail (.tail ((Change.memory hP vm').moves.trans hexec.moves)
        (.turn (.goto .user k.cur.rax true (fun h0 => absurd h0 h.1) rfl rfl h.2)))
        (.change (.frame _ ?_ rfl rfl rfl rfl (Or.inr rfl) (Or.inl hctx)))
      simp only [Kernel.modCur, Kernel.modTask, Kernel.setTask, Kernel.setVm, Kernel.cur,
        update_self, update_idem]

theorem reapTask_moves (h : Active P k) (hs : Sane k) (hP : P.mem) (hT : P.tasks k.cur) {i : Slot}
    (hi : IsChild k i) (hz : (k.tasks i).zombie = true) :
    Moves P k (reapTask k i) ∧ (reapTask k i).current = k.current := by
  have hne : i ≠ k.current := by
    rintro rfl
    exact absurd hi.2.1 (ne_of_lt (hs.parent_lt k.current h.acts.1 hs.cur_live))
  have hi0 : i ≠ 0 := by
    rintro rfl
    exact hi.2.2 hs.idle_pid
  have hd : Drift False (k.setVm (reapMemory k.vm (k.tasks i)))
      (fdsRelease (k.setVm (reapMemory k.vm (k.tasks i))) i) := fdsRelease_drift i
  have hmem : Change P k (k.setVm (reapMemory k.vm (k.tasks i))) := .memory hP _
  have hreap : Turn P (k.setVm (reapMemory k.vm (k.tasks i))) _ :=
    .reap hP i hi0 hne hz h.park hT
  unfold reapTask
  refine ⟨hmem.moves.trans hreap.moves, ?_⟩
  simp only [Kernel.setTask]
  exact hd.current

/-- `sys_waitpid` when no child that it waits for has ended. -/
theorem waitpidWait_moves (h : P.Acts k.current) {pid : Word}
    (hnone : ∀ i, IsChild k i → Wanted pid (k.tasks i) → (k.tasks i).zombie = false) :
    Moves P k (if ∃ i, IsChild k i then
      schedYield (k.modCur fun t => { t with state := .blocked, cont := .waitpid pid })
      else k.finish (-1)) := by
  split
  · exact (Turn.block _ h.1 (.waitpid pid hnone) (Or.inr fun _ => rfl) h.2
      (Or.inr fun _ => rfl)).moves
  · exact finish_moves h _

theorem waitpidRound_none {pid : Word} (hnone : ((List.finRange 64).find? fun i =>
      IsChild k i ∧ Wanted pid (k.tasks i) ∧ (k.tasks i).zombie) = none) (i : Slot)
    (hchild : IsChild k i) (hwant : Wanted pid (k.tasks i)) : (k.tasks i).zombie = false := by
  have := List.find?_eq_none.mp hnone i (List.mem_finRange i)
  cases hz : (k.tasks i).zombie with
  | false => rfl
  | true => exact absurd (decide_eq_true ⟨hchild, hwant, hz⟩) this

theorem waitpidRound_moves (h : Active P k) (hs : Sane k) (hP : P.mem) (hT : P.tasks k.cur)
    (pid : Word) : Moves P k (waitpidRound k pid) := by
  unfold waitpidRound
  split
  next i hfind =>
    have hfound := List.find?_some hfind
    obtain ⟨hchild, -, hz⟩ := of_decide_eq_true hfound
    obtain ⟨hm, hc⟩ := reapTask_moves (P := P) h hs hP hT hchild hz
    exact hm.trans (finish_moves (by rw [hc]; exact h.acts) _)
  next hnone => exact waitpidWait_moves h.acts (waitpidRound_none hnone)

/-- A task in user mode runs in its own slot and on no pipe. -/
theorem Active.of_userMode (hs : Sane k) (ha : P.actor k.current) (huser : userMode k.cur = true) :
    Active P k := by
  constructor
  · refine ⟨hs.toTable.current_ne_zero fun hidle => ?_, ha⟩
    rcases hidle with hc | hc <;> simp [userMode, hc] at huser
  · cases hc : k.cur.cont <;> simp [userMode, hc] at huser
    rfl

/-- The end of a task on a fault that nobody handles. -/
theorem faultDeath_moves (h : Active P k) (hexit : P.exit k.cur) :
    Moves P k (schedYield ((markZombie { k with intr := false } k.current
      (-(sigSegv.val : Int))).goto .dead)) := by
  have hframe : Change P k { k with intr := false } :=
    .frame _ rfl rfl rfl rfl rfl (Or.inr rfl) (Or.inr rfl)
  have hdie : Turn P { k with intr := false } _ :=
    .die (-(sigSegv.val : Int)) h.acts.1 hexit h.park
  have hd : Drift False (slay { k with intr := false } k.current _)
    (markZombie { k with intr := false } k.current (-(sigSegv.val : Int))) :=
    markZombie_drift _ _
  refine hframe.moves.trans (hdie.moves.trans (yield_moves (fun hz => ?_) rfl ?_))
  · exact absurd (hd.current.symm.trans hz) h.acts.1
  · exact (hd.current.symm ▸ h.acts.2 : P.actor (markZombie _ _ _).current)

theorem pageFault_moves (hs : Sane k) (ha : P.actor k.current) (hP : P.mem) {va errCode : Word}
    (hexit : (pmapHandleFault k.vm k.cur.pml4Phys va errCode).1 = false →
      userMode k.cur = true → P.exit k.cur)
    (hf : pageFault k va errCode = some k') : Moves P k k' := by
  unfold pageFault at hf
  split at hf
  next vm he =>
    cases hf
    exact (Change.memory hP vm).moves
  next vm he =>
    rw [he] at hexit
    dsimp only at hf
    split at hf
    · cases hf
    next hcond =>
      cases hf
      have huser : userMode k.cur = true := by
        cases hu : userMode k.cur with
        | true => rfl
        | false => exact absurd (Or.inr hu) hcond
      obtain ⟨h0, hpark⟩ := Active.of_userMode hs ha huser
      have hactive : Active P (k.setVm vm) := ⟨h0, hpark⟩
      exact (Change.memory hP vm).moves.trans (faultDeath_moves hactive (hexit rfl huser))

end Memory

section Pipes

theorem sigPending_of_not_abort {t : Task} (h : (t.sigPending != 0) = false) :
    t.sigPending = 0 := by
  simpa using h

theorem readPass_moves (h : Active P k) {p n : Nat} (hr : readPass k p n = some k') :
    Moves P k k' := by
  unfold readPass at hr
  split at hr
  · cases hr
  next q hq =>
    have hends := pipeReadStep_ends (p := q) n (k.cur.sigPending != 0)
    have hvalid := fun hv => (pipeReadStep_fifo (p := q) hv n (k.cur.sigPending != 0)).1
    split at hr
    next bytes q' he =>
      cases hr
      rw [he] at hends hvalid
      exact (Change.transfer p q q' h.park hq hends.1 hends.2 hvalid).finish h.acts _
    next he =>
      cases hr
      exact finish_moves h.acts _
    next he =>
      cases hr
      exact finish_moves h.acts _
    next q' he =>
      cases hr
      obtain ⟨hlen, hw, hs⟩ := pipeReadStep_park (congrArg Prod.fst he)
      exact (Turn.readPark p n q h.acts.1 hq hlen hw (sigPending_of_not_abort hs) h.acts.2).moves

theorem writePass_moves (h : Active P k) {p : Nat} {data : List UInt8} {done : Nat}
    (hw : writePass k p data done = some k') : Moves P k k' := by
  unfold writePass at hw
  split at hw
  · cases hw
  next q hq =>
    have hends := pipeWriteStep_ends (p := q) (data.drop done) (k.cur.sigPending != 0)
    have hvalid := fun hv => (pipeWriteStep_fifo (p := q) hv (data.drop done)
      (k.cur.sigPending != 0)).1
    split at hw
    next he =>
      cases hw
      exact finish_moves h.acts _
    next he =>
      cases hw
      exact finish_moves h.acts _
    next he =>
      cases hw
      exact finish_moves h.acts _
    next count q' he =>
      cases hw
      rw [he] at hends hvalid
      have htransfer : Change P k (pipeWake (k.setPipe p (some q')) p) :=
        .transfer p q q' h.park hq hends.1 hends.2 hvalid
      exact htransfer.moves.trans (goto_moves (h.of_drift htransfer.drift).acts rfl)
    next q' he =>
      cases hw
      obtain ⟨hlen, hr, hs⟩ := pipeWriteStep_park (congrArg Prod.fst he)
      exact (Turn.writePark p data done q h.acts.1 hq hlen hr (sigPending_of_not_abort hs)
        h.acts.2).moves

theorem keyboardTop_moves (h : P.Acts k.current) (n count : Nat) :
    Moves P k (keyboardTop k n count) := by
  unfold keyboardTop
  split
  · exact finish_moves h _
  · split
    · exact finish_moves h _
    · exact preempt_moves (fun h0 => absurd h0 h.1) rfl h.2

theorem keyboardPoll_moves (h : P.Acts k.current) (n count : Nat) :
    Moves P k (keyboardPoll k n count) := by
  unfold keyboardPoll
  split
  · exact (Turn.goto (.keyboard n count) k.cur.rax true (fun h0 => absurd h0 h.1) rfl rfl h.2).moves
  next c rest _ =>
    have hframe : Change P k { k with kbBuf := rest } :=
      .frame _ rfl rfl rfl rfl rfl (Or.inr rfl) (Or.inr rfl)
    dsimp only
    split
    · exact hframe.finish h _
    · exact hframe.moves.trans (goto_moves (by exact h) rfl)

end Pipes

section Step

theorem dispatch_moves (h : Active P k) (hs : Sane k) {c : Call} (hc : k.cur.cont = .dispatch c)
    (ha : Allowed P k .resume) (hd : dispatch k c = some k') : Moves P k k' := by
  have h0 := h.acts
  have hmem : usesMemory k .resume = true → P.mem := ha.mem
  have hroles : changesRoles k .resume = true → P.roles := ha.roles
  have htasks : changesTasks k .resume = true → P.tasks k.cur := ha.tasks
  have hctx : setsContext k .resume = true → P.ctx := ha.ctx
  simp only [usesMemory, changesRoles, changesTasks, setsContext, hc] at hmem hroles htasks hctx
  cases c with
  | exit status =>
    cases hd
    exact sysExit_moves h (ha.exit (by simp only [exits, hc])) status
  | write fd bufNull data result =>
    cases hd
    exact sysWrite_moves h0 fd bufNull data result
  | read fd bufNull count result =>
    cases hd
    exact sysRead_moves h0 fd bufNull count result
  | openFile pathNull node append size =>
    cases hd
    exact sysOpen_moves h0 pathNull node append size
  | close fd =>
    cases hd
    exact sysClose_moves h fd
  | getpid =>
    cases hd
    exact finish_moves h0 _
  | yield =>
    cases hd
    exact yield_moves (fun hz => absurd hz h0.1) rfl h0.2
  | brk addr =>
    cases hd
    exact sysBrk_moves h0 (hmem rfl) addr
  | fork =>
    cases hd
    exact sysFork_moves h hs (hmem rfl) (htasks rfl)
  | execve pathNull file argv =>
    cases hd
    exact sysExecve_moves h0 (hmem rfl) (hctx rfl) pathNull file argv
  | waitpid pid =>
    cases hd
    exact waitpidRound_moves h hs (hmem rfl) (htasks rfl) pid
  | sigreturn rip rsp =>
    cases hd
    have hframe : Change P k { k with cpu := { k.cpu with rip := rip, rsp := rsp } } :=
      .frame _ rfl rfl rfl rfl rfl (Or.inr rfl) (Or.inl (hctx rfl))
    exact hframe.finish h0 _
  | getppid =>
    cases hd
    exact finish_moves h0 _
  | mmap len =>
    cases hd
    exact sysMmap_moves h0 (hmem rfl) len
  | munmap addr len =>
    cases hd
    exact sysMunmap_moves h0 (hmem rfl) addr len
  | dup fd =>
    cases hd
    exact sysDup_moves h fd
  | dup2 oldfd newfd =>
    cases hd
    exact doDup2_moves h _ _
  | pipe block => exact sysPipe_moves h (ha.pipe (by simp only [makesPipe, hc])) hd
  | kill pid sig =>
    cases hd
    refine sysKill_moves h hs (hctx rfl) pid sig (fun i hsig hfind hpid hi => ha.kill i ?_)
      fun s hsig hfind hdoom => ha.term ?_
    · simp only [killTarget, hc, if_pos hsig, hfind]
      exact Option.filter_some_pos (decide_eq_true ⟨hpid, hi⟩)
    · simp only [Terminates, hc]
      exact ⟨s, hsig, hfind, hdoom⟩
  | signal sig handler =>
    cases hd
    exact sysSignal_moves h0 sig handler
  | panic =>
    obtain ⟨-, heq⟩ := Option.ite_none_right_eq_some.mp hd
    cases heq
    exact finish_moves h0 _
  | rudoRequest op =>
    cases hd
    exact sysRudoRequest_moves h (hroles rfl) op
  | rudoWait =>
    simp only [dispatch] at hd
    split at hd
    · cases hd
      exact finish_moves h0 _
    · exact rudoWaitRound_moves h0 (hroles rfl) (fun _ _ => hmem rfl) hd
  | setuid uid =>
    simp only [dispatch] at hd
    split at hd
    · cases hd
      exact finish_moves h0 _
    · cases hd
      have hedit : Change P k (k.modCur fun t => { t with uid := uid.setWidth 32 }) :=
        .edit k.current _ ⟨rfl, rfl, rfl, rfl, rfl, rfl, rfl, rfl, rfl, id, rfl⟩ rfl
          (Or.inl (hroles rfl))
      exact hedit.finish h0 _
  | getuid =>
    cases hd
    exact finish_moves h0 _
  | setpgid pid pgid =>
    cases hd
    exact sysSetpgid_moves h0 pid pgid
  | getpgid pid =>
    cases hd
    exact sysGetpgid_moves h0 pid
  | setsid =>
    cases hd
    exact sysSetsid_moves h0
  | tcsetpgrp pgid =>
    cases hd
    exact sysTcsetpgrp_moves h0 pgid
  | other result =>
    cases hd
    exact finish_moves h0 _

/-- A task that is not in the idle loop nor about to park. -/
theorem Sane.active (hs : Sane k) (ha : P.actor k.current) {c : Cont} (hc : k.cur.cont = c)
    (hidle : ¬ Idles c) (hpark : Parks c = false) : Active P k :=
  ⟨⟨hs.toTable.current_ne_zero (by rwa [hc]), ha⟩, by rw [hc, hpark]⟩

theorem resume_moves (hs : Sane k) (ha : Allowed P k .resume) (hr : resume k = some k') :
    Moves P k k' := by
  unfold resume at hr
  have active {c : Cont} (hc : k.cur.cont = c) (hidle : ¬ Idles c) (hpark : Parks c = false) :
      Active P k := hs.active ha.actor hc hidle hpark
  cases hc : k.cur.cont with
  | user =>
    simp only [hc] at hr
    cases hr
  | first =>
    simp only [hc] at hr
    cases hr
    exact finish_moves (active hc (by simp [Idles]) rfl).acts _
  | idle =>
    simp only [hc] at hr
    cases hr
    exact preempt_moves (fun _ => Or.inr rfl) rfl ha.actor
  | idleHalt =>
    simp only [hc] at hr
    cases hr
    exact (Turn.goto .idle k.cur.rax true (fun _ => Or.inl rfl) rfl rfl ha.actor).moves
  | entered c =>
    simp only [hc] at hr
    cases hr
    have hctx := ha.ctx
    simp only [setsContext, hc] at hctx
    refine syscallEnter_moves (active hc (by simp [Idles]) rfl) (hctx trivial)
      (fun hdoom => ha.term ?_) c
    simp only [Terminates, hc]
    exact hdoom
  | dispatch c =>
    simp only [hc] at hr
    exact dispatch_moves (active hc (by simp [Idles]) rfl) hs hc ha hr
  | yielded =>
    simp only [hc] at hr
    cases hr
    exact finish_moves (active hc (by simp [Idles]) rfl).acts _
  | read p n =>
    simp only [hc] at hr
    exact readPass_moves (active hc (by simp [Idles]) rfl) hr
  | readPark p n =>
    simp only [hc] at hr
    cases hr
    have h0 := hs.toTable.current_ne_zero (by simp [hc, Idles])
    exact (Turn.block _ h0 (.read p n hc) (Or.inr fun _ => rfl) ha.actor
      (Or.inl (ha.park (congrArg Parks hc)))).moves
  | readWoken p n =>
    simp only [hc] at hr
    have hwait : Change P k (clearWait k) := .clearWait hs.running
    have h := (active hc (by simp [Idles]) rfl).of_drift hwait.drift
    exact hwait.moves.trans (readPass_moves h hr)
  | write p data done =>
    simp only [hc] at hr
    exact writePass_moves (active hc (by simp [Idles]) rfl) hr
  | writePark p data done =>
    simp only [hc] at hr
    cases hr
    have h0 := hs.toTable.current_ne_zero (by simp [hc, Idles])
    exact (Turn.block _ h0 (.write p data done hc) (Or.inr fun _ => rfl) ha.actor
      (Or.inl (ha.park (congrArg Parks hc)))).moves
  | writeWoken p data done =>
    simp only [hc] at hr
    have hwait : Change P k (clearWait k) := .clearWait hs.running
    have h := (active hc (by simp [Idles]) rfl).of_drift hwait.drift
    exact hwait.moves.trans (writePass_moves h hr)
  | waitpid pid =>
    simp only [hc] at hr
    cases hr
    exact waitpidRound_moves (active hc (by simp [Idles]) rfl) hs
      (ha.mem (by simp only [usesMemory, hc])) (ha.tasks (by simp only [changesTasks, hc])) pid
  | keyboard n count =>
    simp only [hc] at hr
    cases hr
    exact keyboardTop_moves (active hc (by simp [Idles]) rfl).acts n count
  | keyboardPoll n count =>
    simp only [hc] at hr
    cases hr
    exact keyboardPoll_moves (active hc (by simp [Idles]) rfl).acts n count
  | rudoRequest =>
    simp only [hc] at hr
    cases hr
    exact finish_moves (active hc (by simp [Idles]) rfl).acts _
  | rudoWait =>
    simp only [hc] at hr
    exact rudoWaitRound_moves (active hc (by simp [Idles]) rfl).acts
      (ha.roles (by simp only [changesRoles, hc])) (fun _ _ => ha.mem (by simp only [usesMemory, hc])) hr
  | dead =>
    simp only [hc] at hr
    cases hr

/-- A step that the policy allows is a sequence of moves under the policy. -/
theorem step_moves (hs : Sane k) {e : Event} (ha : Allowed P k e) (he : step k e = some k') :
    Moves P k k' := by
  cases e with
  | syscall c ctx =>
    obtain ⟨huser, heq⟩ := Option.ite_none_right_eq_some.mp he
    cases heq
    have hframe : Change P k { k with cpu := ctx, intr := false } :=
      .frame _ rfl rfl rfl rfl rfl (Or.inr rfl) (Or.inl (ha.ctx rfl))
    refine hframe.moves.trans (goto_moves ?_ rfl)
    refine ⟨hs.toTable.current_ne_zero fun hidle => ?_, ha.actor⟩
    rcases hidle with hc | hc <;> simp [userMode, hc] at huser
  | resume => exact resume_moves hs ha he
  | store va byte =>
    simp only [step, store] at he
    obtain ⟨-, heq⟩ := Option.ite_none_left_eq_some.mp he
    cases heq
    exact (Change.memory (ha.mem rfl) _).moves
  | fault va errCode =>
    obtain ⟨-, heq⟩ := Option.ite_none_right_eq_some.mp he
    refine pageFault_moves hs ha.actor (ha.mem rfl) (fun hfail huser => ha.exit ?_) heq
    simp only [exits, hfail, huser, Bool.not_false, Bool.and_self]
  | tick =>
    obtain ⟨-, heq⟩ := Option.ite_none_right_eq_some.mp he
    cases heq
    exact .tail .refl (.change (.frame _ rfl rfl rfl rfl rfl (Or.inr rfl) (Or.inr rfl)))
  | key c =>
    obtain ⟨-, heq⟩ := Option.ite_none_right_eq_some.mp he
    cases heq
    refine .tail .refl (.change (.frame _ ?_ ?_ ?_ ?_ ?_ (Or.inr ?_) (Or.inr ?_))) <;> split <;> rfl
  | ctrlC =>
    obtain ⟨-, heq⟩ := Option.ite_none_right_eq_some.mp he
    cases heq
    exact (Change.sigint (ha.sigint rfl)).moves

theorem allowed_any (k : Kernel) (e : Event) : Allowed Policy.any k e :=
  ⟨fun _ => trivial, fun _ => trivial, fun _ => trivial, fun _ => trivial, fun _ => trivial,
    fun _ _ => trivial, fun _ => trivial, fun _ => trivial, trivial, fun _ => trivial,
    fun _ => trivial⟩

/-- Every step keeps the task table in order. -/
theorem Sane.step (hs : Sane k) {e : Event} (he : Sys.step k e = some k') : Sane k' :=
  hs.moves (step_moves hs (allowed_any k e) he)

/-- What every move keeps is kept by a sequence of moves. -/
theorem moves_invariant {Q : Kernel → Prop} (hmove : ∀ k k', Sane k → Q k → Move P k k' → Q k')
    (hs : Sane k) (hq : Q k) (hm : Moves P k k') : Q k' := by
  induction hm with
  | refl => exact hq
  | tail hrest hlast ih => exact hmove _ _ (hs.moves hrest) ih hlast

/-- What every move keeps holds after every run whose events the policy allows. -/
theorem run_invariant {Q : Kernel → Prop} {C : Kernel → Event → Prop}
    (hallow : ∀ k e, C k e → Allowed P k e)
    (hmove : ∀ k k', Sane k → Q k → Move P k k' → Q k') {es : List Event} (hs : Sane k)
    (hq : Q k) (hcond : Run.Along Sys.step C k es) (hrun : Run.run Sys.step k es = some k') :
    Sane k' ∧ Q k' := by
  have hstep : ∀ k e k', Sane k ∧ Q k → C k e → Sys.step k e = some k' → Sane k' ∧ Q k' := by
    intro k e k' h hc he
    have hm := step_moves h.1 (hallow k e hc) he
    exact ⟨h.1.moves hm, moves_invariant hmove h.1 h.2 hm⟩
  exact Run.invariant_along hstep ⟨hs, hq⟩ hcond hrun

end Step

end Mmix.Sys
