import Mmix.Sys.Life

/-!
# The user context across switches

`bsp_cpu` holds the user context of the task that has the CPU. `switch_to`
parks it in the task table and loads that of the next task. The context of a
task, wherever it is kept, changes only by what the task does itself: the entry
of a system call, the delivery of its signals, `sys_sigreturn` and `sys_execve`.
-/

namespace Mmix.Sys

open Mm Fs Proc Kernel

/-- The user context of a task: in `bsp_cpu` while the task has the CPU, in the
task table otherwise. -/
def userCtx (k : Kernel) (i : Slot) : UserCtx := if i = k.current then k.cpu else (k.tasks i).uctx

section Switches

variable {P : Policy} {k k' : Kernel}

theorem userCtx_current (k : Kernel) : userCtx k k.current = k.cpu := if_pos rfl

theorem userCtx_congr (hcur : k'.current = k.current) (hcpu : k'.cpu = k.cpu) {i : Slot}
    (h : (k'.tasks i).uctx = (k.tasks i).uctx) : userCtx k' i = userCtx k i := by
  unfold userCtx
  rw [hcur, hcpu, h]

/-- No edit of a task touches its saved context. -/
theorem uctx_edits : Edits fun t t' => t'.uctx = t.uctx where
  same := fun h => h.uctx
  trans := fun h h' => h'.trans h
  wakeOn := by
    intro p t
    unfold Task.wakeOn Task.wake
    split
    · split <;> rfl
    · rfl
  raiseSigint := by
    intro fg t
    unfold Task.raiseSigint Task.wake
    split
    · rfl
    · split
      · rfl
      · dsimp only
        split
        · split <;> rfl
        · rfl
  clear := fun _ => rfl

theorem wake_uctx (t : Task) : t.wake.uctx = t.uctx := by
  unfold Task.wake
  split <;> rfl

theorem OnlyTables.userCtx (h : OnlyTables k k') (he : Each (fun t t' => t'.uctx = t.uctx) k k')
    (i : Slot) : userCtx k' i = userCtx k i :=
  userCtx_congr h.current h.cpu (he i)

theorem userCtx_modTask (f : Task → Task) (hf : ∀ t, (f t).uctx = t.uctx) (j i : Slot) :
    userCtx (k.modTask j f) i = userCtx k i :=
  (OnlyTables.setTask _ _).userCtx (Each.setTask uctx_edits (hf _)) i

theorem userCtx_modCur (f : Task → Task) (hf : ∀ t, (f t).uctx = t.uctx) (i : Slot) :
    userCtx (k.modCur f) i = userCtx k i := userCtx_modTask f hf k.current i

theorem userCtx_goto (c : Cont) (i : Slot) : userCtx (k.goto c) i = userCtx k i :=
  userCtx_modCur (fun t => { t with cont := c }) (fun _ => rfl) i

theorem userCtx_finish (r : Int) (i : Slot) : userCtx (k.finish r) i = userCtx k i :=
  userCtx_modCur (k := k) (fun t => { t with cont := .user, rax := r }) (fun _ => rfl) i

theorem userCtx_setTask_of_ne {i j : Slot} (h : i ≠ j) (t : Task) :
    userCtx (k.setTask j t) i = userCtx k i := by
  have ht : (k.setTask j t).tasks i = k.tasks i := Function.update_of_ne h ..
  have htables : OnlyTables k (k.setTask j t) := OnlyTables.setTask j t
  exact userCtx_congr htables.current htables.cpu (by rw [ht])

/-- A switch moves both contexts and changes neither. -/
theorem userCtx_switchTo {next : Slot} (hne : next ≠ k.current) (i : Slot) :
    userCtx (switchTo k next) i = userCtx k i := by
  have hparked : ((k.modCur fun t => { t with uctx := k.cpu }).tasks k.current).uctx = k.cpu :=
    congrArg Task.uctx (modCur_cur (k := k) fun t => { t with uctx := k.cpu })
  have hother {j : Slot} (hj : j ≠ k.current) :
      ((k.modCur fun t => { t with uctx := k.cpu }).tasks j).uctx = (k.tasks j).uctx :=
    congrArg Task.uctx (Function.update_of_ne hj ..)
  show (if i = next then ((k.modCur fun t => { t with uctx := k.cpu }).tasks next).uctx
    else ((k.modCur fun t => { t with uctx := k.cpu }).tasks i).uctx) =
      if i = k.current then k.cpu else (k.tasks i).uctx
  by_cases hi : i = next
  · rw [if_pos hi, hother hne, if_neg (hi ▸ hne), hi]
  · rw [if_neg hi]
    by_cases hc : i = k.current
    · rw [if_pos hc, hc, hparked]
    · rw [if_neg hc, hother hc]

theorem userCtx_schedYield (i : Slot) : userCtx (schedYield k) i = userCtx k i := by
  unfold schedYield
  dsimp only
  split
  · rfl
  next hnext =>
    refine (userCtx_switchTo ?_ i).trans ?_
    · exact hnext
    · refine (userCtx_modTask _ ?_ _ i).trans (userCtx_modCur _ (fun t => ?_) i)
      · exact fun _ => rfl
      · split <;> rfl

theorem userCtx_markZombie (j : Slot) (status : Int) (i : Slot) :
    userCtx (markZombie k j status) i = userCtx k i :=
  (OnlyTables.markZombie j status).userCtx
    (Each.markZombie uctx_edits status fun t _ => wake_uctx t) i

theorem userCtx_fdsRelease (j i : Slot) : userCtx (fdsRelease k j) i = userCtx k i :=
  (OnlyTables.fdsRelease j).userCtx (Each.fdsRelease uctx_edits j) i

theorem Blocks.uctx {f : Task → Task} (h : Blocks k f) (t : Task) : (f t).uctx = t.uctx := by
  cases h <;> rfl

/-- A move keeps the contexts of the tasks that were there before. -/
theorem Move.userCtx (hP : ¬ P.ctx) (h : Move P k k') {i : Slot}
    (hl : (k'.tasks i).state ≠ .free) (hlt : (k'.tasks i).pid < k.nextPid) :
    userCtx k' i = userCtx k i := by
  cases h with
  | change hc =>
    have he := Each.change uctx_edits (fun _ => wake_uctx) (fun _ _ _ => rfl) hc
    obtain ⟨-, hcpu, hcur⟩ := hc.globals
    exact userCtx_congr hcur (hcpu.resolve_left hP) (he i)
  | turn ht =>
    cases ht with
    | goto c r b =>
      exact userCtx_modCur (k := k) (fun t => { t with cont := c, rax := r }) (fun _ => rfl) i
    | readPark p n => exact userCtx_goto _ i
    | writePark p data done => exact userCtx_goto _ i
    | spawn _ j t _ hfresh =>
      by_cases hj : i = j
      · subst hj
        have hpid : (Function.update k.tasks i t i).pid < k.nextPid := hlt
        rw [Function.update_self, hfresh.pid] at hpid
        exact absurd hpid (lt_irrefl _)
      · exact userCtx_setTask_of_ne (k := k) hj t
    | yield => exact userCtx_schedYield i
    | block f _ hf =>
      exact (userCtx_schedYield i).trans (userCtx_modCur f hf.uctx i)
    | die status => exact userCtx_markZombie _ status i
    | terminate status =>
      exact (userCtx_fdsRelease _ i).trans (userCtx_markZombie _ status i)
    | kill j =>
      have hsig : Sys.userCtx (k.modTask j fun t => t.addSig sigKill) i = Sys.userCtx k i :=
        userCtx_modTask (fun t => t.addSig sigKill) (fun _ => rfl) j i
      exact ((OnlyTables.killParked j).userCtx
        (Each.killParked uctx_edits fun t _ => wake_uctx t) i).trans hsig
    | reap _ j =>
      by_cases hj : i = j
      · subst hj
        have hzero : ((fdsRelease k i).setTask i Task.zero).tasks i = Task.zero :=
          Function.update_self ..
        rw [hzero] at hl
        exact absurd rfl hl
      · exact (userCtx_setTask_of_ne hj Task.zero).trans (userCtx_fdsRelease j i)

/-- Moves that set no context keep those of the tasks that were there before. -/
theorem Moves.userCtx (hP : ¬ P.ctx) (hs : Sane k) (hm : Moves P k k') :
    k.nextPid ≤ k'.nextPid ∧ ∀ i, (k'.tasks i).state ≠ .free → (k'.tasks i).pid < k.nextPid →
      userCtx k' i = userCtx k i := by
  refine moves_invariant (Q := fun k' => k.nextPid ≤ k'.nextPid ∧
    ∀ i, (k'.tasks i).state ≠ .free → (k'.tasks i).pid < k.nextPid →
      Sys.userCtx k' i = Sys.userCtx k i) (fun k₁ k₂ hs₁ ih hm => ?_) hs
    ⟨le_refl _, fun _ _ _ => rfl⟩ hm
  refine ⟨ih.1.trans hm.nextPid_le, fun i hl hlt => ?_⟩
  have hlt₁ := lt_of_lt_of_le hlt ih.1
  obtain ⟨hl₁, hpid⟩ := ((Moves.elder hs₁ (.single hm)).2 i hl).resolve_right fun hnew =>
    absurd hlt₁ (not_lt.mpr hnew.2)
  exact (hm.userCtx hP hl hlt₁).trans (ih.2 i hl₁ (hpid ▸ hlt))

end Switches

section Tracking

/-- What `deliver_signals` makes of the user context of a task, one round per
signal at most: the first signal with a handler leads to the handler. -/
def signalLoop : Nat → Task → UserCtx → UserCtx
  | 0, _, c => c
  | fuel + 1, t, c =>
    match lowestSig t.sigPending with
    | none => c
    | some sig =>
      if t.sigHandler sig = sigIgn then signalLoop fuel (clearSig t sig) c
      else if t.sigHandler sig = sigDfl then
        if fatalSig sig then c else signalLoop fuel (clearSig t sig) c
      else { c with rip := t.sigHandler sig, rsp := ((c.rsp - 64) &&& ~~~0xF) + 16 }

/-- The context after `deliver_signals` for a task. -/
def signalCtx (t : Task) (c : UserCtx) : UserCtx := signalLoop 33 t c

/-- The context after `sys_execve`. -/
def execCtx (vm : Vm) (pathNull : Bool) (file : Option FileData) (argv : List (List UInt8))
    (c : UserCtx) : UserCtx :=
  if pathNull then c
  else
    let argv := (argv.take execMaxArgs).map fun arg => arg.take (execMaxArgLen - 1)
    match (execBuildImage file argv vm).1 with
    | none => c
    | some img => ⟨img.entry, img.userRsp, 0x202⟩

/-- What the current task itself makes of its context on the way to its next
point: by `deliver_signals` on entry or in `sys_kill`, by `sys_sigreturn` and by
`sys_execve`. -/
def ownUpdate (k : Kernel) (c : UserCtx) : UserCtx :=
  match k.cur.cont with
  | .entered _ => signalCtx k.cur c
  | .dispatch (.kill pid sig) =>
    match sigIndex sig with
    | none => c
    | some sig =>
      if schedFindPid k (toInt pid) = some k.current ∧ k.cur.pid ≠ 0 then
        signalCtx (k.cur.addSig sig) c
      else c
  | .dispatch (.sigreturn rip rsp) => { c with rip := rip, rsp := rsp }
  | .dispatch (.execve pathNull file argv) => execCtx k.vm pathNull file argv c
  | _ => c

/-- The context that a task stored when it entered its system call, as changed
by the task itself since. A new task has the context it was created with. -/
def trackCtx (k : Kernel) (e : Event) (k' : Kernel) (own : Slot → UserCtx) (i : Slot) : UserCtx :=
  if (k.tasks i).state = .free ∨ (k'.tasks i).pid ≠ (k.tasks i).pid then userCtx k' i
  else if i = k.current then
    match e with
    | .syscall _ ctx => ctx
    | .resume => ownUpdate k (own i)
    | _ => own i
  else own i

/-- The machine, and the context each task stored and changed itself. -/
structure Tracked where
  kernel : Kernel
  own : Slot → UserCtx

def Tracked.step (s : Tracked) (e : Event) : Option Tracked :=
  (Sys.step s.kernel e).map fun k' => ⟨k', trackCtx s.kernel e k' s.own⟩

variable {k k' : Kernel}

/-- The contexts of all tasks when the current one has the given context. -/
def withCtx (k : Kernel) (c : UserCtx) (i : Slot) : UserCtx :=
  if i = k.current then c else userCtx k i

theorem withCtx_cpu (k : Kernel) (i : Slot) : withCtx k k.cpu i = userCtx k i := by
  unfold withCtx
  split
  next hi => rw [hi, userCtx_current]
  next => rfl

theorem userCtx_terminateCurrent (sig : Sig) (i : Slot) :
    userCtx (terminateCurrent k sig) i = userCtx k i := by
  unfold terminateCurrent
  dsimp only
  calc userCtx (schedYield ((fdsRelease (markZombie k k.current (-(sig.val : Int)))
          k.current).goto .dead)) i
      = userCtx ((fdsRelease (markZombie k k.current (-(sig.val : Int)))
          k.current).goto .dead) i := userCtx_schedYield i
    _ = userCtx (fdsRelease (markZombie k k.current (-(sig.val : Int))) k.current) i :=
        userCtx_goto _ i
    _ = userCtx (markZombie k k.current (-(sig.val : Int))) i := userCtx_fdsRelease _ i
    _ = userCtx k i := userCtx_markZombie _ _ i

/-- A change of the current task and of the context in force. -/
theorem userCtx_setCpu {k' : Kernel} (hcur : k'.current = k.current)
    (hother : ∀ i, i ≠ k.current → k'.tasks i = k.tasks i) (i : Slot) :
    userCtx k' i = withCtx k k'.cpu i := by
  unfold userCtx withCtx
  rw [hcur]
  by_cases hi : i = k.current
  · rw [if_pos hi, if_pos hi]
  · rw [if_neg hi, if_neg hi, hother i hi, userCtx, if_neg hi]

/-- Delivering signals changes the context of the current task only. -/
theorem userCtx_deliverLoop (fuel : Nat) (i : Slot) :
    userCtx (deliverLoop fuel k).2 i = withCtx k (signalLoop fuel k.cur k.cpu) i := by
  induction fuel generalizing k with
  | zero => exact (withCtx_cpu k i).symm
  | succ fuel ih =>
    unfold deliverLoop signalLoop
    cases hsig : lowestSig k.cur.sigPending with
    | none => exact (withCtx_cpu k i).symm
    | some sig =>
      dsimp only
      have hcur : (k.modCur fun t => clearSig t sig).cur = clearSig k.cur sig := modCur_cur _
      have hclear (c : UserCtx) : withCtx (k.modCur fun t => clearSig t sig) c i =
          withCtx k c i := by
        unfold withCtx
        rw [userCtx_modCur (fun t => clearSig t sig) fun _ => rfl]
        rfl
      have hgo : userCtx (deliverLoop fuel (k.modCur fun t => clearSig t sig)).2 i =
          withCtx k (signalLoop fuel (clearSig k.cur sig) k.cpu) i := by
        rw [ih, hcur, hclear]
        rfl
      split
      · exact hgo
      · split
        · split
          · rw [userCtx_terminateCurrent, withCtx_cpu]
          · exact hgo
        · refine userCtx_setCpu ?_ ?_ i
          · rfl
          · exact fun j hj => Function.update_of_ne hj ..

theorem signalCtx_of_none {t : Task} (h : t.sigPending = 0) (c : UserCtx) : signalCtx t c = c := by
  have hnone : lowestSig t.sigPending = none := by
    rw [h]
    decide
  unfold signalCtx signalLoop
  rw [hnone]

theorem userCtx_preempt (c : Cont) (i : Slot) : userCtx (preempt k c) i = userCtx k i := by
  unfold preempt
  split
  · exact (userCtx_schedYield i).trans (userCtx_goto (k := { k with resched := false }) c i)
  · exact userCtx_goto c i

theorem userCtx_syscallEnter (c : Call) (i : Slot) :
    userCtx (syscallEnter k c) i = withCtx k (signalCtx k.cur k.cpu) i := by
  have hdeliver := userCtx_deliverLoop (k := k) 33 i
  unfold syscallEnter
  by_cases hs : k.cur.sigPending = 0
  · rw [if_pos hs, signalCtx_of_none hs, withCtx_cpu]
    exact userCtx_preempt _ i
  · rw [if_neg hs]
    unfold deliverSignals
    split
    next he =>
      rw [he] at hdeliver
      exact hdeliver
    next he =>
      rw [he] at hdeliver
      exact (userCtx_preempt _ i).trans hdeliver

theorem userCtx_sysExecve (pathNull : Bool) (file : Option FileData) (argv : List (List UInt8))
    (i : Slot) : userCtx (sysExecve k pathNull file argv) i =
      withCtx k (execCtx k.vm pathNull file argv k.cpu) i := by
  unfold sysExecve execCtx
  split
  · exact (userCtx_finish _ i).trans (withCtx_cpu k i).symm
  · dsimp only
    split
    next vm he =>
      rw [he]
      exact (userCtx_finish (k := k.setVm vm) _ i).trans (withCtx_cpu k i).symm
    next img vm he =>
      rw [he]
      generalize pmapDestroy { vm with cr3 := img.pml4Phys } k.cur.pml4Phys = vm'
      refine userCtx_setCpu ?_ ?_ i
      · rfl
      · exact fun j hj => Function.update_of_ne hj ..

/-- A signal that a task sends to itself is delivered at once; one to another
task leaves all contexts alone. -/
theorem userCtx_sysKill (pid sig : Word) (hc : k.cur.cont = .dispatch (.kill pid sig)) (i : Slot) :
    userCtx (sysKill k pid sig) i = withCtx k (ownUpdate k k.cpu) i := by
  have hsame (k' : Kernel) (r : Int) (h : userCtx k' i = userCtx k i) :
      userCtx (k'.finish r) i = withCtx k k.cpu i :=
    ((userCtx_finish r i).trans h).trans (withCtx_cpu k i).symm
  unfold sysKill ownUpdate
  rw [hc]
  dsimp only
  cases hsig : sigIndex sig with
  | none => exact hsame k _ rfl
  | some s =>
    cases hfind : schedFindPid k (toInt pid) with
    | none =>
      dsimp only
      rw [if_neg fun h => by cases h.1]
      exact hsame k _ rfl
    | some j =>
      dsimp only
      have hadd : userCtx (k.modTask j fun t => t.addSig s) i = userCtx k i :=
        userCtx_modTask (fun t => t.addSig s) (fun _ => rfl) j i
      by_cases hpid : (k.tasks j).pid = 0
      · have hnot : ¬ (some j = some k.current ∧ k.cur.pid ≠ 0) := by
          rintro ⟨hj, hne⟩
          cases hj
          exact hne hpid
        rw [if_pos hpid, if_neg hnot]
        exact hsame k _ rfl
      · rw [if_neg hpid]
        by_cases hj : j = k.current
        · subst hj
          have hdeliver := userCtx_deliverLoop (k := k.modCur fun t => t.addSig s) 33 i
          rw [modCur_cur] at hdeliver
          have hresult : userCtx (deliverSignals (k.modTask k.current fun t => t.addSig s)).2 i =
              withCtx k (signalCtx (k.cur.addSig s) k.cpu) i := by
            refine hdeliver.trans ?_
            unfold withCtx
            rw [show k.modCur (fun t => t.addSig s) = k.modTask k.current fun t => t.addSig s
              from rfl, hadd]
            rfl
          have hself : some k.current = some k.current ∧ k.cur.pid ≠ 0 := ⟨rfl, hpid⟩
          rw [if_pos hself, if_pos (show k.current =
            (k.modTask k.current fun t => t.addSig s).current from rfl)]
          split
          next he =>
            rw [he] at hresult
            exact (userCtx_finish _ i).trans hresult
          next he =>
            rw [he] at hresult
            exact hresult
        · have hnot : ¬ (some j = some k.current ∧ k.cur.pid ≠ 0) := fun h =>
            hj (Option.some.inj h.1)
          rw [if_neg hnot, if_neg (show ¬ j = (k.modTask j fun t => t.addSig s).current from hj)]
          split
          · refine hsame _ _ (Eq.trans ?_ hadd)
            exact (OnlyTables.killParked j).userCtx
              (Each.killParked uctx_edits fun t _ => wake_uctx t) i
          · split
            · exact hsame _ _ hadd
            next p _ =>
              refine hsame _ _ (Eq.trans ?_ hadd)
              exact (OnlyTables.pipeWake p).userCtx (Each.pipeWake uctx_edits p) i

/-- The context of every task that was there before and still is. -/
theorem step_userCtx (hs : Sane k) {e : Event} (he : step k e = some k') {i : Slot}
    (hl : (k'.tasks i).state ≠ .free) (hlt : (k'.tasks i).pid < k.nextPid) :
    userCtx k' i = withCtx k (match e with
      | .syscall _ ctx => ctx
      | .resume => ownUpdate k k.cpu
      | _ => k.cpu) i := by
  cases hset : setsContext k e with
  | false =>
    have hallow : Allowed { Policy.any with ctx := False } k e :=
      { allowed_any k e with ctx := fun h => absurd (hset.symm.trans h) (by decide) }
    have hkeep := (Moves.userCtx id hs (step_moves hs hallow he)).2 i hl hlt
    rw [hkeep, ← withCtx_cpu]
    cases e with
    | syscall c ctx => cases hset
    | resume =>
      have hown : ownUpdate k k.cpu = k.cpu := by
        rw [setsContext] at hset
        rw [ownUpdate]
        cases hcont : k.cur.cont with
        | entered c =>
          rw [hcont] at hset
          cases hset
        | dispatch c =>
          rw [hcont] at hset
          cases c with
          | kill | sigreturn | execve => cases hset
          | _ => rfl
        | _ => rfl
      rw [hown]
    | _ => rfl
  | true =>
    cases e with
    | syscall c ctx =>
      obtain ⟨-, heq⟩ := Option.ite_none_right_eq_some.mp he
      cases heq
      refine userCtx_setCpu ?_ ?_ i
      · rfl
      · exact fun j hj => Function.update_of_ne hj ..
    | resume =>
      have hr : resume k = some k' := he
      simp only [setsContext] at hset
      unfold resume at hr
      split at hset
      next c hc =>
        rw [hc] at hr
        cases hr
        rw [userCtx_syscallEnter]
        unfold ownUpdate
        rw [hc]
      next pid sig hc =>
        rw [hc] at hr
        cases hr
        exact userCtx_sysKill pid sig hc i
      next rip rsp hc =>
        rw [hc] at hr
        cases hr
        unfold ownUpdate
        rw [hc]
        refine userCtx_setCpu ?_ ?_ i
        · rfl
        · exact fun j hj => Function.update_of_ne hj ..
      next pathNull file argv hc =>
        rw [hc] at hr
        cases hr
        unfold ownUpdate
        rw [hc]
        exact userCtx_sysExecve pathNull file argv i
      next => cases hset
    | _ => cases hset

/-- Every task has the context that it stored and changed itself. -/
def OwnCtx (s : Tracked) : Prop :=
  ∀ i, (s.kernel.tasks i).state ≠ .free → userCtx s.kernel i = s.own i

theorem OwnCtx.step {s s' : Tracked} (h : OwnCtx s) (hs : Sane s.kernel) {e : Event}
    (he : s.step e = some s') : OwnCtx s' ∧ Sane s'.kernel := by
  obtain ⟨k', hk, rfl⟩ := Option.map_eq_some_iff.mp he
  refine ⟨fun i hl => ?_, hs.step hk⟩
  show userCtx k' i = trackCtx s.kernel e k' s.own i
  unfold trackCtx
  split
  · rfl
  next hold =>
    rw [not_or, not_not] at hold
    have hlt : (k'.tasks i).pid < s.kernel.nextPid := by
      rw [hold.2]
      exact hs.pid_lt i hold.1
    rw [step_userCtx hs hk hl hlt]
    unfold withCtx
    by_cases hi : i = s.kernel.current
    · have hown : s.own i = s.kernel.cpu := by
        rw [← h i hold.1, hi, userCtx_current]
      rw [if_pos hi, if_pos hi, hown]
      cases e <;> rfl
    · rw [if_neg hi, if_neg hi]
      exact h i hold.1

end Tracking

end Mmix.Sys
