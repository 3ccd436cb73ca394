import Mmix.Sys.Life

/-!
# Who wakes a blocked task

A task that is blocked and waits for no pipe is woken only by `sched_wake`: by a
child that ends, or by the other side of `rudo`. A task waits for a pipe only
inside the loops of `pipe_read` and `pipe_write`.
-/

namespace Mmix.Sys

open Mm Fs Proc Kernel Option

section PipeWaits

variable {P : Policy} {k k' : Kernel}

/-- A point inside the loop of `pipe_read` or `pipe_write` at which the task
may still wait for the pipe. -/
def Woken : Cont → Bool
  | .readWoken _ _ => true
  | .writeWoken _ _ _ => true
  | _ => false

/-- A task waits for a pipe only inside its loop. -/
def PipeWaits (k : Kernel) : Prop :=
  ∀ i, (k.tasks i).waitPipe ≠ none → Woken (k.tasks i).cont = true

/-- The task waits for no pipe, or for the same one at the same point. -/
def SameWait (t t' : Task) : Prop :=
  t'.waitPipe = none ∨ t'.waitPipe = t.waitPipe ∧ t'.cont = t.cont

theorem SameWait.wake (t : Task) : SameWait t t.wake := by
  unfold Task.wake
  split <;> exact Or.inr ⟨rfl, rfl⟩

theorem sameWait_edits : Edits SameWait where
  same := fun h => Or.inr ⟨h.waitPipe, h.cont⟩
  trans := by
    intro t t' t'' h h'
    rcases h' with h' | ⟨hw', hc'⟩
    · exact Or.inl h'
    · rcases h with h | ⟨hw, hc⟩
      · exact Or.inl (hw'.trans h)
      · exact Or.inr ⟨hw'.trans hw, hc'.trans hc⟩
  wakeOn := by
    intro p t
    unfold Task.wakeOn
    split
    · rcases SameWait.wake { t with waitPipe := none } with h | h
      · exact Or.inl h
      · exact Or.inl h.1
    · exact Or.inr ⟨rfl, rfl⟩
  raiseSigint := by
    intro fg t
    unfold Task.raiseSigint
    split
    · exact Or.inr ⟨rfl, rfl⟩
    · split
      · exact Or.inr ⟨rfl, rfl⟩
      · dsimp only
        split
        · rcases SameWait.wake { t.addSig sigInt with waitPipe := none } with h | h
          · exact Or.inl h
          · exact Or.inl h.1
        · exact Or.inr ⟨rfl, rfl⟩
  clear := fun _ => Or.inl rfl

theorem PipeWaits.of_each (h : PipeWaits k) (he : Each SameWait k k') : PipeWaits k' := by
  intro i hw
  rcases he i with hnone | ⟨hsame, hcont⟩
  · exact absurd hnone hw
  · rw [hcont]
    exact h i (hsame ▸ hw)

/-- The policy under which only the task in one slot goes on, and does not park. -/
def Policy.solo (c : Slot) : Policy := { Policy.any with actor := fun i => i = c, park := False }

theorem Turn.sameWait {c : Slot} (hc : (k.tasks c).waitPipe = none)
    (h : Turn (Policy.solo c) k k') : Each SameWait k k' := by
  have hT := sameWait_edits
  have hyield (k : Kernel) : Each SameWait k (schedYield k) := by
    intro i
    obtain ⟨u, hu⟩ := @schedYield_tasks k i
    rw [hu]
    exact Or.inr ⟨rfl, rfl⟩
  cases h with
  | goto _ _ _ _ _ _ hactor => exact Each.setTask hT (Or.inl (hactor ▸ hc))
  | readPark _ _ _ _ _ _ _ _ hactor => exact Each.setTask hT (Or.inl (hactor ▸ hc))
  | writePark _ _ _ _ _ _ _ _ _ hactor => exact Each.setTask hT (Or.inl (hactor ▸ hc))
  | spawn _ j t _ ht => exact Each.setTask hT (Or.inl ht.waitPipe)
  | yield => exact hyield k
  | block f _ _ _ hactor hpark =>
    have hedit : Each SameWait k (k.modCur f) :=
      Each.setTask hT (Or.inl ((hpark.resolve_left id _).trans (hactor ▸ hc)))
    exact hedit.trans hT (hyield _)
  | die status => exact Each.markZombie hT status fun t _ => SameWait.wake t
  | terminate status =>
    exact (Each.markZombie hT status fun t _ => SameWait.wake t).trans hT (Each.fdsRelease hT _)
  | kill i =>
    have hsig : Each SameWait k (k.modTask i fun t => t.addSig sigKill) :=
      Each.setTask hT (Or.inr ⟨rfl, rfl⟩)
    exact hsig.trans hT (Each.killParked hT fun t _ => SameWait.wake t)
  | reap _ i => exact (Each.fdsRelease hT i).trans hT (Each.setTask hT (Or.inl rfl))

theorem Moves.sameWait {c : Slot} (hc : (k.tasks c).waitPipe = none)
    (h : Moves (Policy.solo c) k k') : Each SameWait k k' := by
  induction h with
  | refl => exact Each.refl sameWait_edits k
  | tail _ hm ih =>
    refine ih.trans sameWait_edits ?_
    cases hm with
    | change hch =>
      exact Each.change sameWait_edits (fun _ t => SameWait.wake t)
        (fun _ _ _ => Or.inr ⟨rfl, rfl⟩) hch
    | turn ht =>
      refine ht.sameWait (c := c) ?_
      rcases ih c with hnone | hsame
      · exact hnone
      · exact hsame.1.trans hc

theorem PipeWaits.park (h : PipeWaits k) {p : Nat} {c : Cont} (hc : Woken c = true) :
    PipeWaits (park k p c) := by
  have hedit : PipeWaits (k.modCur fun t => { t with
      waitPipe := some p, state := .blocked, cont := c }) :=
    forall_setTask (Q := fun _ t => t.waitPipe ≠ none → Woken t.cont = true) (fun _ => hc)
      fun j _ => h j
  intro i hw
  obtain ⟨u, hu⟩ := @schedYield_tasks (k.modCur fun t => { t with
    waitPipe := some p, state := .blocked, cont := c }) i
  unfold Sys.park at hw ⊢
  rw [hu] at hw ⊢
  exact hedit i hw

/-- A task in the loop first forgets the pipe. -/
theorem PipeWaits.woken (h : PipeWaits k) (hs : Sane k) (hw : Woken k.cur.cont = true)
    (he : resume k = some k') : PipeWaits k' := by
  have hclear : PipeWaits (clearWait k) :=
    h.of_each (Each.setTask sameWait_edits (Or.inl rfl))
  have hnone : ((clearWait k).tasks k.current).waitPipe = none :=
    congrArg Task.waitPipe (modCur_cur (k := k) _)
  have hcont : (clearWait k).cur.cont = k.cur.cont := by
    unfold clearWait
    rw [modCur_cur]
  unfold resume at he
  cases hc : k.cur.cont with
  | readWoken p n =>
    simp only [hc] at he
    have hact : Active (Policy.solo k.current) (clearWait k) :=
      ⟨⟨hs.toTable.current_ne_zero (by simp [hc, Idles]), rfl⟩, by rw [hcont, hc]; rfl⟩
    exact hclear.of_each (Moves.sameWait hnone (readPass_moves hact he))
  | writeWoken p data done =>
    simp only [hc] at he
    have hact : Active (Policy.solo k.current) (clearWait k) :=
      ⟨⟨hs.toTable.current_ne_zero (by simp [hc, Idles]), rfl⟩, by rw [hcont, hc]; rfl⟩
    exact hclear.of_each (Moves.sameWait hnone (writePass_moves hact he))
  | _ =>
    rw [hc] at hw
    cases hw

/-- An event that does not come from a task leaves all tasks where they are. -/
theorem PipeWaits.interrupt (h : PipeWaits k) (huser : userMode k.cur = false) {e : Event}
    (hne : e ≠ .resume) (he : Sys.step k e = some k') : PipeWaits k' := by
  cases e with
  | syscall c ctx =>
    obtain ⟨hu, -⟩ := ite_none_right_eq_some.mp he
    exact absurd (huser.symm.trans hu) (by decide)
  | resume => exact absurd rfl hne
  | store va byte =>
    obtain ⟨-, heq⟩ := ite_none_left_eq_some.mp he
    cases heq
    exact h
  | fault va errCode =>
    obtain ⟨-, hf⟩ := ite_none_right_eq_some.mp he
    unfold pageFault at hf
    split at hf
    · cases hf
      exact h
    · dsimp only at hf
      split at hf
      · cases hf
      next hcond => exact absurd (Or.inr huser) hcond
  | tick =>
    obtain ⟨-, heq⟩ := ite_none_right_eq_some.mp he
    cases heq
    exact h
  | key c =>
    obtain ⟨-, heq⟩ := ite_none_right_eq_some.mp he
    cases heq
    refine h.of_each (Each.of_tasks sameWait_edits ?_)
    split <;> rfl
  | ctrlC =>
    obtain ⟨-, heq⟩ := ite_none_right_eq_some.mp he
    cases heq
    exact h.of_each fun _ => sameWait_edits.raiseSigint _ _

theorem PipeWaits.step (h : PipeWaits k) (hs : Sane k) {e : Event}
    (he : Sys.step k e = some k') : PipeWaits k' := by
  cases hw : Woken k.cur.cont with
  | true =>
    by_cases hr : e = .resume
    · subst hr
      exact h.woken hs hw he
    · refine h.interrupt ?_ hr he
      cases hc : k.cur.cont with
      | user =>
        rw [hc] at hw
        cases hw
      | _ => simp only [userMode, hc]
  | false =>
    have hnone : (k.tasks k.current).waitPipe = none := by
      by_contra hne
      exact absurd (hw.symm.trans (h k.current hne)) (by decide)
    cases hp : parks k e with
    | false =>
      have hallow : Allowed (Policy.solo k.current) k e :=
        { allowed_any k e with
          actor := rfl
          park := fun ht => absurd (hp.symm.trans ht) (by decide) }
      exact h.of_each (Moves.sameWait hnone (step_moves hs hallow he))
    | true =>
      cases e with
      | resume =>
        have hr : resume k = some k' := he
        have hpark : Parks k.cur.cont = true := hp
        unfold resume at hr
        cases hc : k.cur.cont with
        | readPark p n =>
          simp only [hc] at hr
          cases hr
          exact h.park rfl
        | writePark p data done =>
          simp only [hc] at hr
          cases hr
          exact h.park rfl
        | _ =>
          rw [hc] at hpark
          cases hpark
      | _ => cases hp

theorem boot_pipeWaits {vm : Vm} {init rudod : Option FileData}
    (hb : boot vm init rudod = some k) : PipeWaits k :=
  fun i hw => absurd ((boot_calm hb).waitPipe i) hw

end PipeWaits

section Resting

variable {k k' : Kernel} {q : Int}

/-- The task is blocked, but on no pipe. -/
def Rest (t : Task) : Prop := t.state = .blocked ∧ t.waitPipe = none

/-- The task with the identifier keeps resting. -/
def RestsOn (q : Int) (t t' : Task) : Prop := t'.pid = t.pid ∧ (t.pid = q → Rest t → Rest t')

theorem restsOn_edits (q : Int) : Edits (RestsOn q) where
  same := fun h => ⟨h.pid, fun _ hr => ⟨h.state.trans hr.1, h.waitPipe.trans hr.2⟩⟩
  trans := fun h h' => ⟨h'.1.trans h.1, fun hq hr => h'.2 (h.1.trans hq) (h.2 hq hr)⟩
  wakeOn := by
    intro p t
    refine ⟨(Mild.wakeOn p t).pid, fun _ hr => ?_⟩
    unfold Task.wakeOn
    rw [if_neg fun h => absurd (hr.2.symm.trans h.2) (some_ne_none p).symm]
    exact hr
  raiseSigint := by
    intro fg t
    refine ⟨(Mild.raiseSigint fg t).pid, fun _ hr => ?_⟩
    unfold Task.raiseSigint
    split
    · exact hr
    · split
      · exact hr
      · dsimp only
        rw [if_neg fun h => h.2 hr.2]
        exact hr
  clear := fun _ => ⟨rfl, fun _ hr => ⟨hr.1, rfl⟩⟩

theorem RestsOn.wake {t : Task} (h : t.pid ≠ q) : RestsOn q t t.wake :=
  ⟨(Mild.wake t).pid, fun hq => absurd hq h⟩

theorem Rest.schedYield (hrun : (k.tasks 0).Runnable) {i : Slot} (h : Rest (k.tasks i)) :
    Rest ((schedYield k).tasks i) := by
  obtain ⟨u, hu⟩ := @schedYield_tasks k i
  rw [hu]
  refine ⟨?_, h.2⟩
  rcases yieldState_cases (pickNext_runnable hrun) i with ⟨-, -, hr, -⟩ | ⟨-, -, hr, -⟩ | ⟨he, -⟩
  · rcases hr with hr | hr <;> exact absurd (h.1.symm.trans hr) (by decide)
  · exact absurd (h.1.symm.trans hr) (by decide)
  · exact he.trans h.1

/-- The policy under which no child of the task with the identifier ends, and
nobody acts on the `rudo` queue. -/
def Policy.spares (q : Int) : Policy :=
  { Policy.any with
    roles := False
    exit := fun t => t.parentPid ≠ q
    term := fun _ parent => parent ≠ q
    kill := fun t => t.parentPid ≠ q }

theorem Turn.rests (hs : Sane k) (h : Turn (Policy.spares q) k k') {i : Slot}
    (hpid : (k.tasks i).pid = q) (hr : Rest (k.tasks i)) (hl : (k'.tasks i).state ≠ .free) :
    Rest (k'.tasks i) := by
  have hT := restsOn_edits q
  have hcur : i ≠ k.current := by
    rintro rfl
    exact absurd (hr.1.symm.trans hs.running) (by decide)
  have hedit {t : Task} : ((k.setTask k.current t).tasks i) = k.tasks i :=
    Function.update_of_ne hcur ..
  cases h with
  | goto => exact hedit ▸ hr
  | readPark => exact hedit ▸ hr
  | writePark => exact hedit ▸ hr
  | spawn _ j t hfree =>
    have hij : i ≠ j := by
      rintro rfl
      exact absurd (hr.1.symm.trans hfree) (by decide)
    have heq : (k.setTask j t).tasks i = k.tasks i := Function.update_of_ne hij ..
    exact heq ▸ hr
  | yield => exact hr.schedYield hs.idle_runnable
  | block f h0 hf =>
    have hr' : Rest ((k.modCur f).tasks i) := hedit ▸ hr
    exact hr'.schedYield (hs.block h0 hf).1.idle_runnable
  | die status _ hP =>
    have heach : Each (RestsOn q) k (markZombie k k.current status) :=
      Each.markZombie hT status fun t ht => RestsOn.wake (ht ▸ hP)
    exact (heach i).2 hpid hr
  | terminate status _ _ hP =>
    have heach : Each (RestsOn q) k (markZombie k k.current status) :=
      Each.markZombie hT status fun t ht => RestsOn.wake (ht ▸ hP)
    exact ((heach.trans hT (Each.fdsRelease hT _)) i).2 hpid hr
  | kill j _ _ _ hP =>
    have hsig : Each (RestsOn q) k (k.modTask j fun t => t.addSig sigKill) :=
      Each.setTask hT (hT.same ⟨rfl, rfl, rfl, rfl, rfl, rfl⟩)
    have hparent : ((k.modTask j fun t => t.addSig sigKill).tasks j).parentPid =
        (k.tasks j).parentPid := by
      rw [show (k.modTask j fun t => t.addSig sigKill).tasks j = (k.tasks j).addSig sigKill from
        Function.update_self ..]
      rfl
    have heach := hsig.trans hT (Each.killParked hT fun t ht =>
      RestsOn.wake (q := q) (ht.trans hparent ▸ hP))
    exact (heach i).2 hpid hr
  | reap _ j =>
    by_cases hij : i = j
    · subst hij
      have hzero : ((fdsRelease k i).setTask i Task.zero).tasks i = Task.zero :=
        Function.update_self ..
      exact absurd (congrArg Task.state hzero) hl
    · have heq : ((fdsRelease k j).setTask j Task.zero).tasks i = (fdsRelease k j).tasks i :=
        Function.update_of_ne hij ..
      rw [heq]
      exact (Each.fdsRelease hT j i).2 hpid hr

/-- The task with the identifier rests, if it is still there. -/
structure Resting (q : Int) (k : Kernel) : Prop where
  old : q < k.nextPid
  rest : ∀ i, (k.tasks i).state ≠ .free → (k.tasks i).pid = q → Rest (k.tasks i)

theorem Resting.move (h : Resting q k) (hs : Sane k) (hm : Move (Policy.spares q) k k') :
    Resting q k' := by
  refine ⟨lt_of_lt_of_le h.old hm.nextPid_le, fun i hl hq => ?_⟩
  have hback (hk : Kept (Policy.spares q) (k.tasks i) (k'.tasks i)) : Rest (k'.tasks i) := by
    have hpid : (k.tasks i).pid = q := hk.pid.symm.trans hq
    have hr := h.rest i (fun hf => hl (hk.free_iff.mpr hf)) hpid
    cases hm with
    | change hc =>
      exact (Each.change (restsOn_edits q) (fun hP => False.elim hP) (fun hP => False.elim hP)
        hc i).2 hpid hr
    | turn ht => exact ht.rests hs hpid hr hl
  cases hm.life hs i with
  | kept hk => exact hback hk
  | died hk => exact hback hk
  | born _ ht => exact absurd (ht.pid.symm.trans hq) (ne_of_gt h.old)
  | reaped _ hfree => exact absurd hfree hl

end Resting

end Mmix.Sys
