import Mmix.Sys.Steps

/-!
# The booted machine

What the boot sequence leaves behind: a task table in order, with fresh tasks
that hold no pipe, and no pipe at all.
-/

namespace Mmix.Sys

open Mm Fs Proc Kernel

/-- A slot that has not run yet. -/
structure Unborn (t : Task) : Prop where
  state : t.state = .free ∨ t.state = .ready
  zombie : t.zombie = false
  noPipes : NoPipes t

/-- The machine while its first tasks are set up. -/
structure Booting (k : Kernel) : Prop where
  table : Table k
  current : k.current = 0
  pipes : ∀ p, k.pipes p = none
  tasks : ∀ i, Unborn (k.tasks i)

/-- The machine when the scheduler starts. -/
structure Started (k : Kernel) : Prop where
  sane : Sane k
  pipes : ∀ p, k.pipes p = none
  blocked : ∀ i, (k.tasks i).state ≠ .blocked
  zombie : ∀ i, (k.tasks i).zombie = false
  noPipes : ∀ i, NoPipes (k.tasks i)
  parks : ∀ i, Parks (k.tasks i).cont = false

variable {k k' : Kernel}

theorem unborn_zero : Unborn Task.zero := ⟨Or.inl rfl, rfl, fun _ => rfl⟩

theorem schedInit_booting {vm : Vm} (h : schedInit vm = some k) :
    Booting k ∧ k.nextPid = 1 ∧ (k.tasks 1).state = .free := by
  unfold schedInit at h
  split at h
  · cases h
  next kstack pmm _ =>
    cases h
    have hzero (i : Slot) (hi : i ≠ 0) : Function.update (fun _ => Task.zero) 0 { Task.zero with
        kstack := some kstack, state := .ready, cont := .idle } i = Task.zero :=
      Function.update_of_ne hi ..
    have hlive (i : Slot) (hi : (Function.update (fun _ => Task.zero) 0 { Task.zero with
        kstack := some kstack, state := .ready, cont := .idle } i).state ≠ .free) : i = 0 := by
      by_contra h0
      rw [hzero i h0] at hi
      exact hi rfl
    refine ⟨⟨⟨?_, Or.inl rfl, rfl, rfl, Or.inl rfl, ?_, ?_, ?_, ?_, ?_⟩, rfl, fun _ => rfl, ?_⟩,
      rfl, rfl⟩
    · intro i hi
      simp only [hzero i hi]
      exact fun h => TaskState.noConfusion h
    · exact fun i hi hl => absurd (hlive i hl) hi
    · intro i hl
      obtain rfl := hlive i hl
      exact Int.one_pos
    · exact fun i hi hl => absurd (hlive i hl) hi
    · exact fun i j hi hj _ => (hlive i hi).trans (hlive j hj).symm
    · intro i hi
      simp only [hzero i hi]
      rfl
    · intro i
      by_cases hi : i = 0
      · subst hi
        exact ⟨Or.inr rfl, rfl, fun _ => rfl⟩
      · simp only [hzero i hi]
        exact unborn_zero

theorem Table.congr (h : Table k) (htasks : k'.tasks = k.tasks) (hcur : k'.current = k.current)
    (hnext : k'.nextPid = k.nextPid) : Table k' := by
  obtain ⟨h1, h2, h3, h4, h5, h6, h7, h8, h9, h10⟩ := h
  constructor <;> simp only [htasks, hcur, hnext] <;> assumption

theorem Booting.congr (h : Booting k) (htasks : k'.tasks = k.tasks)
    (hcur : k'.current = k.current) (hnext : k'.nextPid = k.nextPid)
    (hpipes : k'.pipes = k.pipes) : Booting k' where
  table := h.table.congr htasks hcur hnext
  current := hcur.trans h.current
  pipes := fun p => by rw [hpipes, h.pipes]
  tasks := fun i => by rw [htasks]; exact h.tasks i

theorem Booting.spawn (h : Booting k) {i : Slot} {t : Task} (hfree : (k.tasks i).state = .free)
    (ht : Fresh k t) (htasks : k'.tasks = Function.update k.tasks i t)
    (hcur : k'.current = k.current) (hnext : k'.nextPid = k.nextPid + 1)
    (hpipes : k'.pipes = k.pipes) : Booting k' where
  table := (h.table.spawn hfree ht).congr htasks hcur hnext
  current := hcur.trans h.current
  pipes := fun p => by rw [hpipes, h.pipes]
  tasks := by
    rw [htasks]
    exact forall_setTask (Q := fun _ t => Unborn t) ⟨ht.state.symm, ht.zombie, ht.noPipes⟩
      fun j _ => h.tasks j

theorem schedSpawn_booting (h : Booting k) {parentPid : Int} (hparent : parentPid < k.nextPid)
    (pml4 entry rsp : Word) :
    Booting (schedSpawnUserTask k pml4 entry rsp parentPid).2 ∧
      ((k.tasks 1).state = .free →
        (schedSpawnUserTask k pml4 entry rsp parentPid).2.nextPid = k.nextPid + 1) := by
  unfold schedSpawnUserTask
  split
  next hnone =>
    refine ⟨h, fun hfree => ?_⟩
    unfold allocSlot at hnone
    have := List.find?_eq_none.mp hnone 1 (List.mem_finRange 1)
    exact absurd (decide_eq_true hfree) this
  next i halloc =>
    have hfree := allocSlot_free halloc
    dsimp only
    split
    · refine ⟨h.spawn hfree ?_ rfl rfl rfl rfl, fun _ => rfl⟩
      exact ⟨rfl, hparent, Or.inr rfl, rfl, fun _ => rfl, rfl,
        (by decide : (1000 : BitVec 32) ≠ 0), rfl⟩
    · refine ⟨h.spawn hfree ?_ rfl rfl rfl rfl, fun _ => rfl⟩
      exact ⟨rfl, hparent, Or.inl rfl, rfl, consoleFds_pipe, rfl,
        (by decide : (1000 : BitVec 32) ≠ 0), rfl⟩

/-- The edit of the boot sequence after a root program was spawned. -/
theorem Booting.edit (h : Booting k) (i : Slot) (uid : BitVec 32) (brk : Word) :
    Booting (k.modTask i fun t => { t with uid := uid, brkBase := brk, brkCur := brk }) where
  table := h.table.setTask (fun hl => ⟨hl, rfl, rfl⟩)
    (fun h0 => h0 ▸ ⟨h.table.idle_runnable, h.table.idle_zombie, h.table.idle_pid,
      h.table.idle_cont⟩)
    fun hne => ⟨h.table.others i hne, h.table.parks i hne⟩
  current := h.current
  pipes := h.pipes
  tasks := forall_setTask (Q := fun _ t => Unborn t)
    ⟨(h.tasks i).state, (h.tasks i).zombie, (h.tasks i).noPipes⟩ fun j _ => h.tasks j

theorem bootSpawn_booting (h : Booting k) {parentPid : Int} (hparent : parentPid < k.nextPid)
    (file : Option FileData) (path : List UInt8) :
    Booting (bootSpawn k file path parentPid).2 ∧
      ((k.tasks 1).state = .free → (bootSpawn k file path parentPid).1 = true →
        (bootSpawn k file path parentPid).2.nextPid = k.nextPid + 1) := by
  unfold bootSpawn
  split
  · exact ⟨h.congr rfl rfl rfl rfl, fun _ hf => Bool.noConfusion hf⟩
  next img vm _ =>
    have hvm : Booting (k.setVm vm) := h.congr rfl rfl rfl rfl
    obtain ⟨hb, hn⟩ := schedSpawn_booting hvm hparent img.pml4Phys img.entry img.userRsp
    split
    next k₁ he =>
      rw [he] at hb hn
      exact ⟨hb, fun hf _ => hn hf⟩
    next pid k₁ he =>
      rw [he] at hb hn
      split
      · exact ⟨hb, fun hf _ => hn hf⟩
      next i _ => exact ⟨hb.edit i 0 (img.brkBase + 0x1000), fun hf _ => hn hf⟩

theorem schedStart_started (h : Booting k) (hs : schedStart k = some k') : Started k' := by
  unfold schedStart at hs
  split at hs
  · cases hs
  next first hfirst =>
    cases hs
    have hfound := List.find?_some hfirst
    obtain ⟨hne, hready⟩ := of_decide_eq_true hfound
    have hself : (k.modTask first fun t => { t with state := .running }).tasks first =
        { k.tasks first with state := .running } := Function.update_self ..
    have hpark (j : Slot) : Parks (k.tasks j).cont = false := by
      by_cases hj : j = 0
      · subst hj
        rcases h.table.idle_cont with hc | hc <;> rw [hc] <;> rfl
      · exact h.table.parks j (by rwa [h.current])
    have htable : Table { k with
        tasks := (k.modTask first fun t => { t with state := .running }).tasks
        current := first } := by
      have ht : Table { k with current := first } := by
        obtain ⟨h1, h2, h3, h4, h5, h6, h7, h8, h9, h10⟩ := h.table
        refine ⟨fun j _ => ?_, h2, h3, h4, h5, h6, h7, h8, h9, fun j _ => hpark j⟩
        rcases (h.tasks j).state with hs | hs <;> simp only [hs] <;>
          exact fun h => TaskState.noConfusion h
      refine (ht.setTask (i := first) (t := { k.tasks first with state := .running }) (fun _ => ?_)
        (fun h0 => absurd h0 hne) fun hc => absurd rfl hc).congr rfl rfl rfl
      exact ⟨by simp only [hready]; exact fun h => TaskState.noConfusion h, rfl, rfl⟩
    have all (Q : Task → Prop) (h₁ : Q { k.tasks first with state := .running })
        (h₂ : ∀ j, j ≠ first → Q (k.tasks j)) (j : Slot) :
        Q ((k.modTask first fun t => { t with state := .running }).tasks j) :=
      forall_setTask (Q := fun _ t => Q t) h₁ h₂ j
    refine ⟨⟨htable.congr rfl rfl rfl, ?_⟩, h.pipes, ?_, ?_, ?_, ?_⟩
    · exact congrArg Task.state hself
    · refine all (fun t => t.state ≠ .blocked) (fun h => TaskState.noConfusion h) fun j _ => ?_
      rcases (h.tasks j).state with hs | hs <;> rw [hs] <;> exact fun h => TaskState.noConfusion h
    · exact all (fun t => t.zombie = false) (h.tasks first).zombie fun j _ => (h.tasks j).zombie
    · exact all NoPipes (h.tasks first).noPipes fun j _ => (h.tasks j).noPipes
    · exact all (fun t => Parks t.cont = false) (hpark first) fun j _ => hpark j

/-- The boot sequence ends with a machine at work. -/
theorem boot_started {vm : Vm} {init rudod : Option FileData} (h : boot vm init rudod = some k) :
    Started k := by
  unfold boot at h
  split at h
  · cases h
  next k₀ h₀ =>
    obtain ⟨hb, hn, hfree⟩ := schedInit_booting h₀
    obtain ⟨hb₁, hn₁⟩ := bootSpawn_booting hb (by rw [hn]; decide : (0 : Int) < k₀.nextPid) init
      (pathBytes "/bin/init")
    split at h
    · cases h
    next k₁ he =>
      rw [he] at hb₁ hn₁
      have hnext : (1 : Int) < k₁.nextPid := by
        rw [hn₁ hfree rfl, hn]
        decide
      exact schedStart_started (bootSpawn_booting hb₁ hnext rudod (pathBytes "/bin/rudod")).1 h

/-- Nobody has asked `rudo` for anything, and nobody waits for a pipe. -/
structure Calm (k : Kernel) : Prop where
  pending : k.rudo.pending = false
  conts : ∀ i, Rudo (k.tasks i).cont = false
  waitPipe : ∀ i, (k.tasks i).waitPipe = none

theorem Calm.update (h : Calm k) {i : Slot} {t : Task}
    (htasks : k'.tasks = Function.update k.tasks i t) (hrudo : k'.rudo = k.rudo)
    (ht : Rudo t.cont = false) (hw : t.waitPipe = none) : Calm k' := by
  refine ⟨hrudo ▸ h.pending, ?_, ?_⟩
  · rw [htasks]
    exact forall_setTask (Q := fun _ t => Rudo t.cont = false) ht fun j _ => h.conts j
  · rw [htasks]
    exact forall_setTask (Q := fun _ t => t.waitPipe = none) hw fun j _ => h.waitPipe j

theorem schedInit_calm {vm : Vm} (h : schedInit vm = some k) : Calm k := by
  unfold schedInit at h
  split at h
  · cases h
  next kstack pmm _ =>
    cases h
    have hidle (i : Slot) : Rudo (Function.update (fun _ => Task.zero) 0 { Task.zero with
        kstack := some kstack, state := .ready, cont := .idle } i).cont = false ∧
        (Function.update (fun _ => Task.zero) 0 { Task.zero with
          kstack := some kstack, state := .ready, cont := .idle } i).waitPipe = none := by
      by_cases hi : i = 0
      · subst hi
        exact ⟨rfl, rfl⟩
      · rw [Function.update_of_ne hi]
        exact ⟨rfl, rfl⟩
    exact ⟨rfl, fun i => (hidle i).1, fun i => (hidle i).2⟩

theorem schedSpawn_calm (h : Calm k) (pml4 entry rsp : Word) (parentPid : Int) :
    Calm (schedSpawnUserTask k pml4 entry rsp parentPid).2 := by
  unfold schedSpawnUserTask
  split
  · exact h
  · dsimp only
    split <;> exact h.update rfl rfl rfl rfl

theorem bootSpawn_calm (h : Calm k) (file : Option FileData) (path : List UInt8)
    (parentPid : Int) : Calm (bootSpawn k file path parentPid).2 := by
  unfold bootSpawn
  split
  · exact ⟨h.pending, h.conts, h.waitPipe⟩
  next img vm _ =>
    have hvm : Calm (k.setVm vm) := ⟨h.pending, h.conts, h.waitPipe⟩
    have hq := schedSpawn_calm hvm img.pml4Phys img.entry img.userRsp parentPid
    split
    next k₁ he =>
      rw [he] at hq
      exact hq
    next pid k₁ he =>
      rw [he] at hq
      split
      · exact hq
      next i _ => exact hq.update rfl rfl (hq.conts i) (hq.waitPipe i)

theorem boot_calm {vm : Vm} {init rudod : Option FileData} (h : boot vm init rudod = some k) :
    Calm k := by
  unfold boot at h
  split at h
  · cases h
  next k₀ h₀ =>
    have hq₁ := bootSpawn_calm (schedInit_calm h₀) init (pathBytes "/bin/init") 0
    split at h
    · cases h
    next k₁ he =>
      rw [he] at hq₁
      have hq₂ := bootSpawn_calm hq₁ rudod (pathBytes "/bin/rudod") 1
      unfold schedStart at h
      split at h
      · cases h
      next first _ =>
        cases h
        exact hq₂.update rfl rfl (hq₂.conts first) (hq₂.waitPipe first)

/-- A machine with 256 pages of memory, for concrete runs. Single pages are
found in the low holes, kernel stacks above them. -/
def smallVm : Vm where
  pmm :=
    { bitmap := fun page => decide (page < 2 ∨ page = 33 ∨ (61 ≤ page ∧ page < 64))
      totalPages := 256
      freePages := 250 }
  mem := fun _ _ => 0
  refs := fun _ => 0
  refsPages := 256
  cr3 := 0x1000
  kernelPml4 := 0x1000
  usable := fun page => decide (2 ≤ page)

/-- An executable with one empty segment, for concrete runs. -/
def smallProgram : FileData where
  size := 120
  data
    | 0 => 0x7F
    | 1 => 0x45
    | 2 => 0x4C
    | 3 => 0x46
    | 16 => 2
    | 18 => 62
    | 26 => 0x40
    | 32 => 64
    | 56 => 1
    | 64 => 1
    | 82 => 0x40
    | _ => 0

/-- The events of a system call that is not preempted. -/
def call (c : Call) : List Event := [.syscall c ⟨0, 0, 0x202⟩, .resume, .resume]

end Mmix.Sys
