import Mmix.Sys.PipeOps

/-!
# Pipe reference counts in every run

The agreement of counters and descriptor tables is an invariant of the machine.
-/

namespace Mmix.Sys

open Mm Fs Proc Kernel Tally

variable {k k' : Kernel}

/-- Pipes and descriptor tables of the kernel agree, and free slots hold no
descriptors of pipes. -/
structure PipesOk (k : Kernel) : Prop where
  counted : Counted (files k) k.pipes
  free : ∀ i, (k.tasks i).state = .free → NoPipes (k.tasks i)

theorem PipesOk.congr (h : PipesOk k) (hfds : ∀ i, (k'.tasks i).fds = (k.tasks i).fds)
    (hpipes : k'.pipes = k.pipes)
    (hfree : ∀ i, (k'.tasks i).state = .free → (k.tasks i).state = .free) : PipesOk k' where
  counted := by
    rw [show files k' = files k from funext hfds, hpipes]
    exact h.counted
  free := fun i hi fd => by
    rw [hfds i]
    exact h.free i (hfree i hi) fd

/-- A change of one task that keeps its descriptors. -/
theorem modTask_fds {i : Slot} {f : Task → Task} (hf : ∀ t, (f t).fds = t.fds) (j : Slot) :
    ((k.modTask i f).tasks j).fds = (k.tasks j).fds :=
  forall_setTask (Q := fun j t => t.fds = (k.tasks j).fds) (hf _) (fun _ _ => rfl) j

theorem postSig_fds (i : Slot) (sig : Sig) (j : Slot) :
    ((postSig k i sig).tasks j).fds = (k.tasks j).fds := by
  have hmod : ((k.modTask i fun t => t.addSig sig).tasks j).fds = (k.tasks j).fds :=
    modTask_fds (fun _ => by rfl) j
  unfold postSig
  split
  · exact hmod
  · exact (pipeWake_fds _ j).trans hmod

theorem raiseSigint_fds (j : Slot) : ((raiseSigint k).tasks j).fds = (k.tasks j).fds := by
  simp only [raiseSigint, Task.raiseSigint]
  split
  · rfl
  · split
    · rfl
    · split
      · exact wake_fds _
      · rfl

theorem noPipes_of_fds {t t' : Task} (h : t'.fds = t.fds) (ht : NoPipes t) : NoPipes t' :=
  fun fd => by rw [h]; exact ht fd

theorem NoPipes.setFd {t : Task} (h : NoPipes t) {f : File} (hf : f.pipe = none) (fd : Fd) :
    NoPipes (t.setFd fd f) := by
  intro fd'
  by_cases hfd : fd' = fd
  · simp only [Task.setFd, hfd, Function.update_self]
    exact hf
  · simp only [Task.setFd, Function.update_of_ne hfd]
    exact h fd'

/-- A change gives descriptors of pipes only to the current task, and to a live
one that is no zombie. -/
theorem Change.noPipes {P : Policy} (hc : Change P k k') {i : Slot} (hn : NoPipes (k.tasks i))
    (hcur : P.pipe k.cur → i ≠ k.current)
    (hlive : (k.tasks i).state ≠ .free → (k.tasks i).zombie = true) : NoPipes (k'.tasks i) := by
  have same (hfds : (k'.tasks i).fds = (k.tasks i).fds) : NoPipes (k'.tasks i) :=
    noPipes_of_fds hfds hn
  have set {j : Slot} {t : Task} (ht : i = j → NoPipes t) : NoPipes ((k.setTask j t).tasks i) :=
    forall_setTask (Q := fun j t => i = j → NoPipes t) ht (fun _ _ hj => hj ▸ hn) i rfl
  cases hc with
  | frame _ htasks => exact same (by rw [htasks])
  | memory => exact same rfl
  | edit j t ha => exact set fun hj => noPipes_of_fds ha.fds (hj ▸ hn)
  | exec _ t ha =>
    refine set fun hj => ?_
    subst hj
    exact noPipes_of_fds ha.fds hn
  | file fd f hpipe =>
    refine set fun hj => ?_
    subst hj
    exact hn.setFd (hpipe.trans (hn fd)) fd
  | close fd =>
    by_cases hi : i = k.current
    · subst hi
      exact noPipes_of_fds (fdPut_fds _ fd) (hn.setFd (show File.zero.pipe = none from rfl) fd)
    · exact same (fdPut_fds_of_ne fd hi)
  | share old new =>
    unfold shareFd
    rw [fdRef_tasks]
    refine set fun hj => ?_
    subst hj
    exact hn.setFd (hn old) new
  | newPipe p rd wr _ _ _ _ hP => exact same (congrArg Task.fds (Function.update_of_ne (hcur hP) ..))
  | wakeAll p => exact same (pipeWake_fds p i)
  | transfer p q q' => exact same (pipeWake_fds p i)
  | wake j => exact same (modTask_fds wake_fds i)
  | inherit j _ hready hz =>
    have hij : i ≠ j := by
      rintro rfl
      exact Bool.noConfusion (hz.symm.trans (hlive hready))
    unfold forkInherit
    rw [addFdRefs_tasks]
    exact noPipes_of_fds (congrArg Task.fds (Function.update_of_ne hij ..)) hn
  | signal j sig => exact same (postSig_fds j sig i)
  | signalSelf sig => exact same (modTask_fds (fun _ => by rfl) i)
  | clearWait => exact same (modTask_fds (f := fun t => { t with waitPipe := none }) (fun _ => rfl) i)
  | sigint => exact same (raiseSigint_fds i)

/-- The changes keep counters and tables in agreement. -/
theorem Counted.change {P : Policy} (h : Counted (files k) k.pipes) (hc : Change P k k') :
    Counted (files k') k'.pipes := by
  -- Most changes leave the descriptors and the counters as they are.
  have same (hfds : ∀ i, (k'.tasks i).fds = (k.tasks i).fds) (hpipes : k'.pipes = k.pipes) :
      Counted (files k') k'.pipes := by
    rw [show files k' = files k from funext hfds, hpipes]
    exact h
  have set {i : Slot} {t : Task} (ht : t.fds = (k.tasks i).fds) (j : Slot) :
      ((k.setTask i t).tasks j).fds = (k.tasks j).fds :=
    forall_setTask (Q := fun j t => t.fds = (k.tasks j).fds) ht (fun _ _ => rfl) j
  cases hc with
  | frame _ htasks _ _ hpipes => exact same (fun i => by rw [htasks]) hpipes
  | memory => exact same (fun _ => rfl) rfl
  | edit i t ha => exact same (set ha.fds) rfl
  | exec _ t ha => exact same (set ha.fds) rfl
  | file fd f hpipe hflags =>
    have hfiles : files (k.modCur fun t => t.setFd fd f) = Function.update (files k) k.current
        (Function.update (files k k.current) fd f) :=
      files_modTask (f := fun t => t.setFd fd f) k.current _ rfl
    rw [hfiles]
    exact h.setFile hpipe hflags
  | close fd => exact h.fdPut _ fd
  | share old new _ hnew => exact h.shareFd hnew
  | newPipe p rd wr hp hne hrd hwr => exact h.installPipe hp hne hrd hwr
  | wakeAll p => exact same (pipeWake_fds p) rfl
  | transfer p q q' _ hq hrd hwr =>
    have hfiles : files (pipeWake (k.setPipe p (some q')) p) = files k :=
      funext fun i => wakeOn_fds p _
    rw [hfiles]
    exact h.setPipe hq hrd hwr
  | wake i => exact same (modTask_fds wake_fds) rfl
  | inherit i _ hready _ hfds => exact h.forkInherit hfds
  | signal i sig =>
    refine same (postSig_fds i sig) ?_
    unfold postSig
    split <;> rfl
  | signalSelf sig => exact same (modTask_fds fun _ => by rfl) rfl
  | clearWait => exact same (modTask_fds (f := fun t => { t with waitPipe := none }) fun _ => rfl) rfl
  | sigint => exact same raiseSigint_fds rfl

theorem PipesOk.change {P : Policy} (h : PipesOk k) (hs : Sane k) (hc : Change P k k') :
    PipesOk k' := by
  refine ⟨h.counted.change hc, fun i hi => ?_⟩
  have hfree := (hc.drift.tasks i).free_iff.mp hi
  refine hc.noPipes (h.free i hfree) (fun _ => ?_) fun hl => absurd hfree hl
  rintro rfl
  exact hs.cur_live hfree

theorem schedYield_fds (i : Slot) : ((schedYield k).tasks i).fds = (k.tasks i).fds := by
  obtain ⟨u, hu⟩ := @schedYield_tasks k i
  rw [hu]

theorem PipesOk.schedYield (h : PipesOk k) (hrun : (k.tasks 0).Runnable) :
    PipesOk (schedYield k) := by
  exact h.congr schedYield_fds schedYield_pipes fun i => (schedYield_free_iff hrun i).mp

theorem markZombie_fds (i : Slot) (status : Int) (j : Slot) :
    ((markZombie k i status).tasks j).fds = (k.tasks j).fds := by
  have hmod : ((k.modTask i fun t => { t with exitStatus := status, zombie := true }).tasks j).fds =
      (k.tasks j).fds := modTask_fds (fun _ => by rfl) j
  unfold markZombie wakeParent
  split
  · exact hmod
  · exact (modTask_fds wake_fds j).trans hmod

theorem killParked_fds (i j : Slot) : ((killParked k i).tasks j).fds = (k.tasks j).fds := by
  unfold killParked
  dsimp only
  split
  · rw [pipeWake_fds]
    exact (modTask_fds (fun _ => by rfl) j).trans (markZombie_fds i _ j)
  · exact (modTask_fds wake_fds j).trans (markZombie_fds i _ j)

theorem PipesOk.setTask (h : PipesOk k) {i : Slot} {t : Task} (hfds : t.fds = (k.tasks i).fds)
    (hfree : t.state = .free → (k.tasks i).state = .free) : PipesOk (k.setTask i t) :=
  h.congr (forall_setTask (Q := fun j t => t.fds = (k.tasks j).fds) hfds fun _ _ => rfl) rfl
    (forall_setTask (Q := fun j t => t.state = .free → (k.tasks j).state = .free) hfree
      fun _ _ => id)

theorem markZombie_pipes (i : Slot) (status : Int) : (markZombie k i status).pipes = k.pipes := by
  unfold markZombie wakeParent
  split <;> rfl

theorem killParked_pipes (i : Slot) : (killParked k i).pipes = k.pipes := by
  unfold killParked
  dsimp only
  split <;> exact markZombie_pipes i _

theorem PipesOk.markZombie (h : PipesOk k) (i : Slot) (status : Int) :
    PipesOk (markZombie k i status) := by
  have hd : Drift False (slay k i status) (Sys.markZombie k i status) := markZombie_drift _ _
  refine h.congr (markZombie_fds i status) (markZombie_pipes i status) fun j hj => ?_
  exact (slay_state i j status).symm.trans ((hd.tasks j).free_iff.mp hj)

theorem PipesOk.fdsRelease (h : PipesOk k) (i : Slot) : PipesOk (fdsRelease k i) := by
  have hd : Drift False k (Sys.fdsRelease k i) := fdsRelease_drift i
  refine ⟨h.counted.fdsRelease i, fun j hj => ?_⟩
  by_cases hc : j = i
  · rw [hc]
    exact fdsRelease_noPipes i
  · exact noPipes_of_fds (fdsRelease_fds_of_ne hc) (h.free j ((hd.tasks j).free_iff.mp hj))

/-- A task without pipes may be replaced by another one. -/
theorem PipesOk.replace (h : PipesOk k) {i : Slot} {t : Task} (hold : NoPipes (k.tasks i))
    (ht : NoPipes t) : PipesOk (k.setTask i t) := by
  have hfiles : files (k.setTask i t) = Function.update (files k) i t.fds :=
    files_modTask (f := fun _ => t) i _ rfl
  have hends (side : File → Int) (p : Nat) :
      ends side p (Function.update (files k) i t.fds) = ends side p (files k) := by
    have h1 : tableEnds side p (files k i) = 0 := tableEnds_noPipes hold
    have h2 : tableEnds side p t.fds = 0 := tableEnds_noPipes ht
    rw [ends_update, h1, h2]
    omega
  refine ⟨?_, forall_setTask (Q := fun _ t => t.state = .free → NoPipes t) (fun _ => ht)
    fun j _ => h.free j⟩
  rw [hfiles]
  refine ⟨fun p => ?_, h.counted.used, fun j fd hf => ?_⟩
  · rw [hends, hends]
    exact h.counted.exact p
  · by_cases hj : j = i
    · subst hj
      rw [Function.update_self] at hf
      exact absurd (ht fd) hf
    · rw [Function.update_of_ne hj] at hf ⊢
      exact h.counted.ended j fd hf

theorem blocks_fds {f : Task → Task} (hf : Blocks k f) (t : Task) :
    (f t).fds = t.fds ∧ (f t).state = .blocked := by
  cases hf <;> exact ⟨rfl, rfl⟩

/-- The turns keep counters and tables in agreement. -/
theorem PipesOk.turn {P : Policy} (h : PipesOk k) (hs : Sane k) (ht : Turn P k k') :
    PipesOk k' := by
  cases ht with
  | goto c r b =>
    have hset : PipesOk (k.setTask k.current { k.cur with cont := c, rax := r }) :=
      h.setTask rfl id
    exact hset.congr (fun _ => rfl) rfl fun _ => id
  | readPark p n => exact h.setTask rfl id
  | writePark p data done => exact h.setTask rfl id
  | spawn _ i t hfree ht =>
    exact (h.replace (h.free i hfree) ht.noPipes).congr (fun _ => rfl) rfl fun _ => id
  | yield => exact h.schedYield hs.idle_runnable
  | block f h0 hf =>
    have hblock : PipesOk (k.modCur f) := by
      refine h.setTask (blocks_fds hf _).1 fun hfree => ?_
      exact absurd ((blocks_fds hf _).2.symm.trans hfree) (by decide)
    exact hblock.schedYield (hs.block h0 hf).1.idle_runnable
  | die status => exact h.markZombie _ _
  | terminate status =>
    have hz := h.markZombie k.current status
    exact hz.fdsRelease k.current
  | kill i =>
    have hsig : PipesOk (k.modTask i fun t => t.addSig sigKill) := h.setTask rfl id
    have hd : Drift False (slay _ i _)
        (killParked (k.modTask i fun t => t.addSig sigKill) i) := killParked_drift i
    refine hsig.congr (killParked_fds i) (killParked_pipes i) fun j hj => ?_
    exact (slay_state i j _).symm.trans ((hd.tasks j).free_iff.mp hj)
  | reap _ i =>
    exact (h.fdsRelease i).replace (fdsRelease_noPipes i) fun _ => rfl

/-- Every move keeps counters and tables in agreement. -/
theorem PipesOk.move {P : Policy} (h : PipesOk k) (hs : Sane k) (hm : Move P k k') :
    PipesOk k' := by
  cases hm with
  | change hc => exact h.change hs hc
  | turn ht => exact h.turn hs ht

/-- No pipe and no descriptor of one. -/
theorem Started.pipesOk (h : Started k) : PipesOk k := by
  have hends (side : File → Int) (p : Nat) : ends side p (files k) = 0 :=
    tally_eq_zero fun i => tableEnds_noPipes (h.noPipes i)
  refine ⟨⟨fun p => ?_, fun p q hq => ?_, fun i fd hf => absurd (h.noPipes i fd) hf⟩,
    fun i _ => h.noPipes i⟩
  · rw [h.pipes, hends, hends]
    rfl
  · rw [h.pipes] at hq
    cases hq

/-- The descriptors of live slots that refer to a pipe and carry a flag. -/
def pipeEnds (k : Kernel) (p : Nat) (flag : File → Bool) : Finset (Slot × Fd) :=
  Finset.univ.filter fun x => (k.tasks x.1).state ≠ .free ∧
    ((k.tasks x.1).fds x.2).pipe = some p ∧ flag ((k.tasks x.1).fds x.2)

theorem ends_eq_card (h : PipesOk k) (p : Nat) (flag : File → Bool) :
    ends (fun f => if flag f then 1 else 0) p (files k) = ((pipeEnds k p flag).card : Int) := by
  unfold ends tableEnds tally pipeEnds
  rw [Finset.card_filter, Nat.cast_sum, Fintype.sum_prod_type]
  refine Finset.sum_congr rfl fun i _ => Finset.sum_congr rfl fun fd _ => ?_
  change held _ p ((k.tasks i).fds fd) = _
  unfold held
  by_cases hp : ((k.tasks i).fds fd).pipe = some p
  · have hl : (k.tasks i).state ≠ .free := by
      intro hfree
      rw [h.free i hfree fd] at hp
      cases hp
    cases hflag : flag ((k.tasks i).fds fd) <;> simp [hp, hl, hflag]
  · simp [hp]

/-- The task table and the pipes are in order after every run. -/
theorem run_pipesOk {vm : Vm} {init rudod : Option FileData} {k₀ : Kernel} {es : List Event}
    (hboot : boot vm init rudod = some k₀) (hrun : Run.run step k₀ es = some k) :
    Sane k ∧ PipesOk k := by
  have hstart := boot_started hboot
  exact run_invariant (fun k e _ => allowed_any k e) (fun _ _ hs h hm => h.move hs hm) hstart.sane
    hstart.pipesOk (Run.along_true k₀ es) hrun

/-- In every state of every run the counters of a pipe are the numbers of its
descriptors; a pipe exists as long as one of them is not zero, and goes away
in the step in which both become zero. -/
theorem pipe_counts_exact {vm : Vm} {init rudod : Option FileData} {k₀ k : Kernel}
    {es : List Event} (hboot : boot vm init rudod = some k₀)
    (hrun : Run.run step k₀ es = some k) :
    (∀ p q, k.pipes p = some q → q.readers = (pipeEnds k p File.isRd).card ∧
      q.writers = (pipeEnds k p File.isWr).card) ∧
    (∀ i fd p, (k.tasks i).state ≠ .free → ((k.tasks i).fds fd).pipe = some p →
      ∃ q, k.pipes p = some q) ∧
    ∀ e k' p, step k e = some k' → (k.pipes p).isSome →
      (k'.pipes p = none ↔
        (pipeEnds k' p File.isRd).card = 0 ∧ (pipeEnds k' p File.isWr).card = 0) := by
  obtain ⟨hs, h⟩ := run_pipesOk hboot hrun
  refine ⟨fun p q hq => ?_, fun i fd p _ hf => h.counted.live hf, fun e k' p he _ => ?_⟩
  · obtain ⟨hr, hw⟩ := h.counted.counts hq
    exact ⟨hr.trans (ends_eq_card h p File.isRd), hw.trans (ends_eq_card h p File.isWr)⟩
  · have h' := moves_invariant (fun _ _ hs h hm => PipesOk.move h hs hm) hs h
      (step_moves hs (allowed_any k e) he)
    have hr : ends File.rd p (files k') = _ := ends_eq_card h' p File.isRd
    have hw : ends File.wr p (files k') = _ := ends_eq_card h' p File.isWr
    rw [h'.counted.none_iff p, hr, hw, Int.natCast_eq_zero, Int.natCast_eq_zero]

/-- A pipe made by the first process, with one end of each kind. -/
theorem pipe_counts_exact_first_pipe : ∃ k₀ k q, boot smallVm (some smallProgram) none = some k₀ ∧
    Run.run step k₀ (.resume :: call (.pipe (some 5))) = some k ∧ k.pipes 5 = some q ∧
    q.readers = (pipeEnds k 5 File.isRd).card ∧ q.writers = (pipeEnds k 5 File.isWr).card := by
  have hrun : ((boot smallVm (some smallProgram) none).bind fun k₀ =>
      (Run.run step k₀ (.resume :: call (.pipe (some 5)))).bind fun k => k.pipes 5).isSome := by
    decide +kernel
  obtain ⟨q, hq⟩ := Option.isSome_iff_exists.mp hrun
  obtain ⟨k₀, hboot, hrest⟩ := Option.bind_eq_some_iff.mp hq
  obtain ⟨k, hrun, hpipe⟩ := Option.bind_eq_some_iff.mp hrest
  obtain ⟨hr, hw⟩ := (pipe_counts_exact hboot hrun).1 5 q hpipe
  exact ⟨k₀, k, q, hboot, hrun, hpipe, hr, hw⟩

end Mmix.Sys
