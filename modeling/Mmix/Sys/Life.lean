import Mmix.Sys.Boot
import Mmix.Sys.Edits

/-!
# The life of a task

What one move can do to the slot of a task: the slot is taken by a new task,
the task ends, its slot is given back, or its identity stays as it is. The user
of a task and the `rudo` queue change only where a policy allows it.
-/

namespace Mmix.Sys

open Mm Fs Proc Kernel Function

/-- The queue of `rudo` and the users of all tasks are the same. -/
structure SameRoles (k k' : Kernel) : Prop where
  rudo : k'.rudo = k.rudo
  uid : ∀ i, (k'.tasks i).uid = (k.tasks i).uid

namespace SameRoles

variable {k k' k'' : Kernel}

theorem trans (h : SameRoles k k') (h' : SameRoles k' k'') : SameRoles k k'' :=
  ⟨h'.rudo.trans h.rudo, fun i => (h'.uid i).trans (h.uid i)⟩

theorem wake_uid (t : Task) : t.wake.uid = t.uid := by
  unfold Task.wake
  split <;> rfl

/-- No edit but one of the user changes the user of a task. -/
theorem uid_edits : Edits fun t t' => t'.uid = t.uid where
  same := fun h => h.uid
  trans := fun h h' => h'.trans h
  wakeOn := by
    intro p t
    unfold Task.wakeOn
    split
    · exact wake_uid _
    · rfl
  raiseSigint := by
    intro fg t
    unfold Task.raiseSigint
    split
    · rfl
    · split
      · rfl
      · dsimp only
        split
        · exact wake_uid _
        · rfl
  clear := fun _ => rfl

theorem setTask {i : Slot} {t : Task} (h : t.uid = (k.tasks i).uid) :
    SameRoles k (k.setTask i t) := ⟨rfl, Each.setTask uid_edits h⟩

theorem schedWake (i : Slot) : SameRoles k (schedWake k i) := setTask (wake_uid _)

theorem fdsRelease (i : Slot) : SameRoles k (fdsRelease k i) :=
  ⟨(OnlyTables.fdsRelease i).rudo, Each.fdsRelease uid_edits i⟩

theorem schedYield : SameRoles k (schedYield k) := by
  refine ⟨?_, fun i => ?_⟩
  · unfold Proc.schedYield
    dsimp only
    split <;> rfl
  · obtain ⟨u, hu⟩ := @schedYield_tasks k i
    rw [hu]

theorem markZombie (i : Slot) (status : Int) : SameRoles k (markZombie k i status) :=
  ⟨(OnlyTables.markZombie i status).rudo, Each.markZombie uid_edits status fun t _ => wake_uid t⟩

theorem killParked (i : Slot) : SameRoles k (killParked k i) :=
  ⟨(OnlyTables.killParked i).rudo, Each.killParked uid_edits fun t _ => wake_uid t⟩

/-- A change keeps the roles unless the policy allows other ones. -/
theorem change {P : Policy} (hP : ¬ P.roles) (h : Change P k k') : SameRoles k k' :=
  ⟨(h.globals).1.resolve_left hP,
    Each.change uid_edits (fun hR => absurd hR hP) (fun hR => absurd hR hP) h⟩

end SameRoles

section Life

variable {P : Policy} {k k' : Kernel}

/-- The task keeps its identity, and does not start to wait inside `rudo`. -/
structure Kept (P : Policy) (t t' : Task) : Prop where
  free_iff : t'.state = .free ↔ t.state = .free
  pid : t'.pid = t.pid
  parentPid : t'.parentPid = t.parentPid
  uid : P.roles ∨ t'.uid = t.uid
  cont : P.roles ∨ t'.cont = t.cont ∨ Rudo t'.cont = false

theorem Kept.refl (P : Policy) (t : Task) : Kept P t t :=
  ⟨Iff.rfl, rfl, rfl, Or.inr rfl, Or.inr (Or.inl rfl)⟩

/-- The policy allows the task to end. -/
def Policy.End (P : Policy) (t : Task) : Prop :=
  P.exit t ∨ P.term t.pid t.parentPid ∨ P.kill t

/-- What a move does to a slot. -/
inductive Life (P : Policy) (k k' : Kernel) (i : Slot) : Prop
  | kept (h : Kept P (k.tasks i) (k'.tasks i)) (hz : (k'.tasks i).zombie = (k.tasks i).zombie)
  | died (h : Kept P (k.tasks i) (k'.tasks i)) (hP : P.End (k.tasks i))
  | born (hfree : (k.tasks i).state = .free) (ht : Fresh k (k'.tasks i))
      (hparent : (k'.tasks i).parentPid = k.cur.pid) (hP : P.tasks k.cur)
  | reaped (hz : (k.tasks i).zombie = true) (hfree : (k'.tasks i).state = .free)
      (hP : P.tasks k.cur)

theorem Kept.of_mild {t t' : Task} (h : Mild t t') (huid : P.roles ∨ t'.uid = t.uid) :
    Kept P t t' := ⟨h.free_iff, h.pid, h.parentPid, huid, Or.inr (Or.inl h.cont)⟩

theorem Change.life (h : Change P k k') (i : Slot) : Life P k k' i := by
  have hm := h.drift.tasks i
  refine .kept (.of_mild hm ?_) hm.zombie
  by_cases hP : P.roles
  · exact Or.inl hP
  · exact Or.inr ((SameRoles.change hP h).uid i)

/-- The slots are edited in a way that keeps all identities. -/
theorem Life.of_edit {j : Slot} {t : Task} (ht : Kept P (k.tasks j) t)
    (hz : t.zombie = (k.tasks j).zombie) (htasks : k'.tasks = update k.tasks j t)
    (i : Slot) : Life P k k' i := by
  by_cases hi : i = j
  · subst hi
    have heq : k'.tasks i = t := by rw [htasks, update_self]
    exact .kept (heq ▸ ht) (heq ▸ hz)
  · have heq : k'.tasks i = k.tasks i := by rw [htasks, update_of_ne hi]
    exact .kept (heq ▸ Kept.refl P _) (by rw [heq])

/-- One task ends, and the others notice it only as a wake-up. -/
theorem Life.of_death {b : Kernel} {j : Slot} {t : Task}
    (hb : b.tasks = update k.tasks j t)
    (hstate : t.state = (k.tasks j).state) (hpid : t.pid = (k.tasks j).pid)
    (hparent : t.parentPid = (k.tasks j).parentPid) (hcont : t.cont = (k.tasks j).cont)
    (hd : Drift False b k') (hr : SameRoles k k')
    (hP : P.End (k.tasks j)) (i : Slot) : Life P k k' i := by
  have hm := hd.tasks i
  by_cases hi : i = j
  · subst hi
    have heq : b.tasks i = t := by rw [hb, update_self]
    rw [heq] at hm
    refine .died ⟨?_, hm.pid.trans hpid, hm.parentPid.trans hparent, Or.inr (hr.uid i),
      Or.inr (Or.inl (hm.cont.trans hcont))⟩ hP
    rw [hm.free_iff, hstate]
  · have heq : b.tasks i = k.tasks i := by rw [hb, update_of_ne hi]
    rw [heq] at hm
    exact .kept (.of_mild hm (Or.inr (hr.uid i))) hm.zombie

/-- The CPU passes to another task. -/
theorem Life.of_yield {f : Task → Task} (hrun : ((k.modCur f).tasks 0).Runnable)
    (hstate : (f k.cur).state = .free ↔ k.cur.state = .free) (hpid : (f k.cur).pid = k.cur.pid)
    (hparent : (f k.cur).parentPid = k.cur.parentPid) (huid : (f k.cur).uid = k.cur.uid)
    (hz : (f k.cur).zombie = k.cur.zombie)
    (hcont : P.roles ∨ (f k.cur).cont = k.cur.cont ∨ Rudo (f k.cur).cont = false) (i : Slot) :
    Life P k (schedYield (k.modCur f)) i := by
  have hfree := schedYield_free_iff hrun i
  obtain ⟨u, hu⟩ := @schedYield_tasks (k.modCur f) i
  by_cases hi : i = k.current
  · have heq : (k.modCur f).tasks i = f (k.tasks i) := by
      rw [hi]
      exact update_self ..
    subst hi
    refine .kept ⟨?_, ?_, ?_, Or.inr ?_, ?_⟩ ?_
    · rw [hfree, heq]
      exact hstate
    · rw [hu, heq]
      exact hpid
    · rw [hu, heq]
      exact hparent
    · rw [hu, heq]
      exact huid
    · rw [hu, heq]
      exact hcont
    · rw [hu, heq]
      exact hz
  · have heq : (k.modCur f).tasks i = k.tasks i := update_of_ne hi ..
    rw [heq] at hu hfree
    exact .kept ⟨hfree, by rw [hu], by rw [hu], Or.inr (by rw [hu]), Or.inr (Or.inl (by rw [hu]))⟩
      (by rw [hu])

theorem Turn.life (hs : Sane k) (h : Turn P k k') (i : Slot) : Life P k k' i := by
  cases h with
  | goto c r b _ _ hrudo =>
    exact .of_edit (t := { k.cur with cont := c, rax := r })
      ⟨Iff.rfl, rfl, rfl, Or.inr rfl, Or.inr (Or.inr hrudo)⟩ rfl rfl i
  | readPark p n =>
    exact .of_edit (t := { k.cur with cont := .readPark p n })
      ⟨Iff.rfl, rfl, rfl, Or.inr rfl, Or.inr (Or.inr rfl)⟩ rfl rfl i
  | writePark p data done =>
    exact .of_edit (t := { k.cur with cont := .writePark p data done })
      ⟨Iff.rfl, rfl, rfl, Or.inr rfl, Or.inr (Or.inr rfl)⟩ rfl rfl i
  | spawn _ j t hfree ht hparent hP =>
    by_cases hi : i = j
    · subst hi
      have heq : ({ k.setTask i t with nextPid := k.nextPid + 1 } : Kernel).tasks i = t :=
        update_self ..
      refine .born hfree ?_ ?_ hP
      · rw [heq]
        exact ht
      · rw [heq]
        exact hparent
    · have heq : ({ k.setTask j t with nextPid := k.nextPid + 1 } : Kernel).tasks i =
          k.tasks i := update_of_ne hi ..
      refine .kept ?_ (by rw [heq])
      rw [heq]
      exact Kept.refl P _
  | yield =>
    have heq : k.modCur id = k := by
      unfold Kernel.modCur Kernel.modTask Kernel.setTask
      rw [id, update_eq_self]
    have hyield := Life.of_yield (P := P) (k := k) (f := id) (by rw [heq]; exact hs.idle_runnable)
      Iff.rfl rfl rfl rfl rfl (Or.inr (Or.inl rfl)) i
    rwa [heq] at hyield
  | block f h0 hf hP =>
    have hrun := (hs.block h0 hf).1.idle_runnable
    have hfree : (f k.cur).state = .free ↔ k.cur.state = .free := by
      have hlive := hs.cur_live
      cases hf <;> exact ⟨fun h => TaskState.noConfusion h, fun h => absurd h hlive⟩
    have hcont : P.roles ∨ (f k.cur).cont = k.cur.cont ∨ Rudo (f k.cur).cont = false :=
      hP.imp_right fun h => Or.inr (h k.cur)
    cases hf <;> exact .of_yield hrun hfree rfl rfl rfl rfl hcont i
  | die status h0 hP =>
    exact .of_death (t := { k.cur with exitStatus := status, zombie := true }) rfl rfl rfl rfl rfl
      (markZombie_drift _ status) (SameRoles.markZombie _ _)
      (Or.inl hP) i
  | terminate status h0 _ hP =>
    exact .of_death (t := { k.cur with exitStatus := status, zombie := true }) rfl rfl rfl rfl rfl
      ((markZombie_drift _ status).trans (fdsRelease_drift _))
      ((SameRoles.markZombie _ _).trans (SameRoles.fdsRelease _)) (Or.inr (Or.inl hP)) i
  | kill j _ _ _ hP =>
    have hsig : SameRoles k (k.modTask j fun t => t.addSig sigKill) := SameRoles.setTask rfl
    have hb : (slay (k.modTask j fun t => t.addSig sigKill) j (-(sigKill.val : Int))).tasks =
        update k.tasks j { (k.tasks j).addSig sigKill with
          exitStatus := -(sigKill.val : Int), zombie := true } := by
      simp only [slay, Kernel.modTask, Kernel.setTask, update_self, update_idem]
    exact .of_death hb rfl rfl rfl rfl (killParked_drift j)
      (hsig.trans (SameRoles.killParked j)) (Or.inr (Or.inr hP)) i
  | reap _ j _ _ hz _ hP =>
    by_cases hi : i = j
    · subst hi
      have heq : ((fdsRelease k i).setTask i Task.zero).tasks i = Task.zero :=
        update_self ..
      exact .reaped hz (congrArg Task.state heq) hP
    · have hd : Drift False k (fdsRelease k j) := fdsRelease_drift j
      have hm := hd.tasks i
      have heq : ((fdsRelease k j).setTask j Task.zero).tasks i = (fdsRelease k j).tasks i :=
        update_of_ne hi ..
      rw [← heq] at hm
      refine .kept (.of_mild hm (Or.inr ?_)) hm.zombie
      rw [heq]
      exact (SameRoles.fdsRelease j).uid i

theorem Move.life (hs : Sane k) (h : Move P k k') (i : Slot) : Life P k k' i := by
  cases h with
  | change hc => exact hc.life i
  | turn ht => exact ht.life hs i

/-- The identifiers given out grow. -/
theorem Move.nextPid_le (h : Move P k k') : k.nextPid ≤ k'.nextPid := by
  cases h with
  | change hc => exact le_of_eq hc.drift.nextPid.symm
  | turn ht =>
    cases ht with
    | spawn => exact le_of_lt (Int.lt_succ _)
    | yield => exact le_of_eq schedYield_nextPid.symm
    | block f => exact le_of_eq (@schedYield_nextPid (k.modCur f)).symm
    | die status =>
      have hd : Drift False (slay k k.current status) _ := markZombie_drift _ _
      exact le_of_eq hd.nextPid.symm
    | terminate status =>
      have hd : Drift False (slay k k.current status) _ :=
        (markZombie_drift _ _).trans (fdsRelease_drift k.current)
      exact le_of_eq hd.nextPid.symm
    | kill i =>
      have hd : Drift False (slay (k.modTask i fun t => t.addSig sigKill) i _) _ :=
        killParked_drift i
      exact le_of_eq hd.nextPid.symm
    | reap _ i =>
      have hd : Drift False k _ := fdsRelease_drift i
      exact le_of_eq hd.nextPid.symm
    | _ => exact le_refl _

end Life

section Elders

variable {P : Policy} {k k' : Kernel}

/-- A task that is there after some moves was there before, or was created by
them and has a new identifier. -/
theorem Moves.elder (hs : Sane k) (hm : Moves P k k') : k.nextPid ≤ k'.nextPid ∧
    ∀ i, (k'.tasks i).state ≠ .free →
      (k.tasks i).state ≠ .free ∧ (k'.tasks i).pid = (k.tasks i).pid ∨
      (∃ t, P.tasks t) ∧ k.nextPid ≤ (k'.tasks i).pid := by
  refine moves_invariant (Q := fun k' => k.nextPid ≤ k'.nextPid ∧
    ∀ i, (k'.tasks i).state ≠ .free →
      (k.tasks i).state ≠ .free ∧ (k'.tasks i).pid = (k.tasks i).pid ∨
      (∃ t, P.tasks t) ∧ k.nextPid ≤ (k'.tasks i).pid) (fun k₁ k₂ hs₁ ih hm => ?_) hs
    ⟨le_refl _, fun i hl => Or.inl ⟨hl, rfl⟩⟩ hm
  refine ⟨ih.1.trans hm.nextPid_le, fun i hl => ?_⟩
  have hback (hk : Kept P (k₁.tasks i) (k₂.tasks i)) :
      (k.tasks i).state ≠ .free ∧ (k₂.tasks i).pid = (k.tasks i).pid ∨
        (∃ t, P.tasks t) ∧ k.nextPid ≤ (k₂.tasks i).pid := by
    rw [hk.pid]
    exact ih.2 i fun hf => hl (hk.free_iff.mpr hf)
  cases hm.life hs₁ i with
  | kept hk => exact hback hk
  | died hk => exact hback hk
  | born _ ht _ hP => exact Or.inr ⟨⟨_, hP⟩, ht.pid ▸ ih.1⟩
  | reaped _ hfree => exact absurd hfree hl

theorem elder_step (hs : Sane k) {e : Event} (he : step k e = some k') :
    k.nextPid ≤ k'.nextPid ∧ ∀ i, (k'.tasks i).state ≠ .free → (k'.tasks i).pid < k.nextPid →
      (k.tasks i).state ≠ .free ∧ (k'.tasks i).pid = (k.tasks i).pid := by
  have hm := Moves.elder hs (step_moves hs (allowed_any k e) he)
  refine ⟨hm.1, fun i hl hlt => (hm.2 i hl).resolve_right fun hnew => ?_⟩
  exact absurd hlt (not_lt.mpr hnew.2)

/-- A task with an identifier that was given out before the run started is
there all along. -/
theorem elder_run (hs : Sane k) {es : List Event} (hrun : Run.run step k es = some k') {i : Slot}
    (hl : (k'.tasks i).state ≠ .free) (hlt : (k'.tasks i).pid < k.nextPid) :
    (k.tasks i).state ≠ .free ∧ (k'.tasks i).pid = (k.tasks i).pid := by
  induction es generalizing k with
  | nil =>
    cases hrun
    exact ⟨hl, rfl⟩
  | cons e es ih =>
    obtain ⟨k₁, he, hrest⟩ := Run.run_cons hrun
    obtain ⟨hle, hback⟩ := elder_step hs he
    obtain ⟨hl₁, hpid₁⟩ := ih (hs.moves (step_moves hs (allowed_any k e) he)) hrest
      (lt_of_lt_of_le hlt hle)
    obtain ⟨hl₀, hpid₀⟩ := hback i hl₁ (hpid₁ ▸ hlt)
    exact ⟨hl₀, hpid₁.trans hpid₀⟩

/-- A step that deals with users creates no task. -/
theorem role_step_live (hs : Sane k) {e : Event} (hc : changesRoles k e = true)
    (he : step k e = some k') {i : Slot} (hl : (k'.tasks i).state ≠ .free) :
    (k.tasks i).state ≠ .free ∧ (k'.tasks i).pid = (k.tasks i).pid := by
  have hnone : changesTasks k e = false := by
    cases e with
    | resume =>
      simp only [changesRoles] at hc
      split at hc
      next hcur => simp only [changesTasks, hcur]
      next hcur => simp only [changesTasks, hcur]
      next hcur => simp only [changesTasks, hcur]
      next hcur => simp only [changesTasks, hcur]
      next => cases hc
    | _ => rfl
  have hallow : Allowed { Policy.any with tasks := fun _ => False } k e :=
    { allowed_any k e with tasks := fun ht => absurd (hnone.symm.trans ht) (by decide) }
  exact ((Moves.elder hs (step_moves hs hallow he)).2 i hl).resolve_right fun h => h.1.elim
    fun _ h => h

end Elders


end Mmix.Sys
