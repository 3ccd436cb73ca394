import Mmix.Sys.TaskCalls

/-!
# Frames over whole runs

A frame that is a table or a page of a live task is not free, and no two leaf
entries show the same frame, as long as every call that gives frames back also
takes away their entries. `sys_brk` does not when it shrinks the heap.
-/

namespace Mmix.Sys

open Mm Fs Proc Kernel Forest

section Conditions

/-- The segments of the file lie in the user half. -/
def UserImage (file : Option FileData) : Prop :=
  ∀ f ∈ file, ∀ ph ∈ loadHeaders f.data, UserSegment ph

instance (file : Option FileData) : Decidable (UserImage file) :=
  inferInstanceAs (Decidable (∀ _ ∈ _, _))

/-- The event gives no frame back that stays mapped and does not touch the
upper half of an address space. -/
def Tidy (k : Kernel) : Event → Prop
  | .resume =>
    match k.cur.cont with
    | .dispatch (.brk addr) =>
      Unmapped k.vm k.cur.pml4Phys (pageUp addr) (brkLoss k.cur addr)
    | .dispatch (.munmap addr len) =>
      UpperUnmapped k.vm k.cur.pml4Phys addr (munmapPages addr len)
    | .dispatch (.execve _ file _) => UserImage file
    | _ => True
  | .fault va _ => UpperPlain k.vm k.cur.pml4Phys va
  | _ => True

/-- The event maps no page, unless it is a fork. -/
def MapsNothing (k : Kernel) : Event → Prop
  | .resume =>
    match k.cur.cont with
    | .dispatch (.brk addr) => brkGrowth k.cur addr = 0
    | .dispatch (.mmap len) => mmapPages k.cur len = 0
    | .dispatch (.execve _ file _) => loadable file = false
    | _ => True
  | .fault va errCode => ¬ StackGrowth k.vm k.cur.pml4Phys va errCode
  | _ => True

instance (k : Kernel) (e : Event) : Decidable (Tidy k e) := by
  cases e <;> dsimp only [Tidy]
  case resume =>
    generalize k.cur.cont = c
    rcases c with _ | _ | _ | _ | _ | c <;> try cases c
    all_goals infer_instance
  all_goals infer_instance

/-- The event belongs to scheduling and the life of processes: it is no system
call that changes an address space, and a fault ends the task. -/
def Scheduling (k : Kernel) : Event → Prop
  | .resume =>
    match k.cur.cont with
    | .dispatch (.brk _) => False
    | .dispatch (.mmap _) => False
    | .dispatch (.munmap _ _) => False
    | .dispatch (.execve _ _ _) => False
    | _ => True
  | .fault va errCode => (pmapHandleFault k.vm k.cur.pml4Phys va errCode).1 = false
  | _ => True

instance (k : Kernel) (e : Event) : Decidable (Scheduling k e) := by
  cases e <;> dsimp only [Scheduling]
  case resume =>
    generalize k.cur.cont = c
    rcases c with _ | _ | _ | _ | _ | c <;> try cases c
    all_goals infer_instance
  all_goals infer_instance

end Conditions

section Step

variable {c : Prop} {k k' : Kernel}

theorem allowed_still {e : Event} (h : usesMemory k e = false) : Allowed Policy.still k e :=
  { allowed_any k e with mem := fun hm => absurd (h.symm.trans hm) (by decide) }

theorem Housed.dispatch (h : Homed c k) (hs : Sane k) {call : Call}
    (hcont : k.cur.cont = .dispatch call) (hmem : usesMemory k .resume = true)
    (ht : Tidy k .resume) (hc : c → MapsNothing k .resume) (hd : dispatch k call = some k') :
    Homed c k' := by
  have h0 : k.current ≠ 0 := by
    refine hs.toTable.current_ne_zero fun hidle => ?_
    rw [hcont] at hidle
    rcases hidle with hi | hi <;> cases hi
  simp only [usesMemory, Tidy, MapsNothing, hcont] at hmem ht hc
  cases call with
  | brk addr =>
    cases hd
    exact h.sysBrk hs h0 hc ht
  | fork =>
    cases hd
    exact h.sysFork
  | execve pathNull file argv =>
    cases hd
    exact h.sysExecve hs h0 hc ht
  | waitpid pid =>
    cases hd
    exact h.waitpidRound hs h0 pid
  | mmap len =>
    cases hd
    exact h.sysMmap hs h0 hc
  | munmap addr len =>
    cases hd
    exact h.sysMunmap hs h0 ht
  | rudoWait =>
    simp only [Sys.dispatch] at hd
    split at hd
    · cases hd
      exact h.same (SameHomes.finish k _)
    · exact h.rudoWaitRound hs h0 hd
  | _ => cases hmem

/-- A tidy step keeps the tenancies in order. -/
theorem Housed.step (h : Homed c k) (hs : Sane k) {e : Event} (ht : Tidy k e)
    (hc : c → MapsNothing k e) (he : step k e = some k') : Homed c k' := by
  cases hmem : usesMemory k e with
  | false => exact h.still hs (step_moves hs (allowed_still hmem) he)
  | true =>
    cases e with
    | resume =>
      have hr : resume k = some k' := he
      unfold resume at hr
      have hmem' := hmem
      have hnot {c : Cont} (hcont : k.cur.cont = c) (hidle : ¬ Idles c) : k.current ≠ 0 :=
        hs.toTable.current_ne_zero (hcont ▸ hidle)
      simp only [usesMemory] at hmem'
      cases hcont : k.cur.cont with
      | dispatch call =>
        rw [hcont] at hr
        exact h.dispatch hs hcont hmem ht hc hr
      | waitpid pid =>
        rw [hcont] at hr
        cases hr
        exact h.waitpidRound hs (hnot hcont (by simp [Idles])) pid
      | rudoWait =>
        rw [hcont] at hr
        exact h.rudoWaitRound hs (hnot hcont (by simp [Idles])) hr
      | _ =>
        rw [hcont] at hmem'
        cases hmem'
    | store va byte => exact h.store hs he
    | fault va errCode =>
      obtain ⟨-, heq⟩ := Option.ite_none_right_eq_some.mp he
      exact h.pageFault hs ht hc heq
    | _ => cases hmem

end Step

section Boot

variable {c : Prop} {k k' : Kernel}

/-- The memory that the boot sequence starts from: page numbers fit in an
entry, and no free frame is counted. -/
structure BootMemory (vm : Vm) : Prop where
  total_le : vm.pmm.totalPages ≤ 2 ^ 40
  refs : ∀ f, vm.pmm.Free f → vm.refs f = 0

theorem BootMemory.housed {vm : Vm} (h : BootMemory vm) : Housed c (fun _ => none) vm := by
  have hR (r : Nat) : r ∉ roots fun _ => none := by
    rintro ⟨i, t, ht, -⟩
    cases ht
  have hK (f : Nat) : f ∉ kstacks fun _ => none := by
    rintro ⟨i, t, ht, -⟩
    cases ht
  constructor
  · constructor
    · exact ⟨fun ht => absurd ht.mem_roots (hR _), fun ht => absurd ht.mem_roots (hR _)⟩
    · exact ⟨h.total_le, fun _ _ r _ hr => hR r hr.mem_roots⟩
    · exact fun hl => absurd hl.mem_roots (hR _)
    · exact fun ht => hR _ ht.mem_roots
    · exact h.refs
    · exact fun ht => absurd ht.mem_roots (hR _)
    · exact fun f hf => absurd hf (hK f)
    · exact fun hl => absurd hl.mem_roots (hR _)
  · intro i j t t' r hi
    cases hi
  · intro i j t t' f hi
    cases hi
  · intro i t _ hi
    cases hi

theorem schedInit_homed {vm : Vm} (h : BootMemory vm) (hinit : schedInit vm = some k) :
    Homed c k := by
  unfold schedInit at hinit
  split at hinit
  · cases hinit
  next kstack pmm hp =>
    cases hinit
    have hempty : Housed c (fun _ => none) vm := h.housed
    obtain ⟨htake, hnew⟩ := hempty.owned.take hp
    have hpages := stackPages_some 0 kstack
    have hroot : Tenant.root ⟨0, some kstack⟩ = ∅ :=
      Set.eq_empty_of_forall_notMem fun r hr => hr.1 rfl
    have htenant : Owned (kstacks (fun _ => none) ∪ Tenant.stackPages ⟨0, some kstack⟩) {_r | c}
        (roots (fun _ => none) ∪ Tenant.root ⟨0, some kstack⟩) { vm with pmm := pmm } := by
      rw [hroot, hpages, Set.union_empty]
      exact htake
    have hlodge := hempty.lodge (i := 0) (t := ⟨0, some kstack⟩)
      (fun hne => absurd rfl hne) (fun r hr => absurd rfl hr.1)
      (fun f hf => hnew f (hpages ▸ hf).1 (hpages ▸ hf).2)
      htenant
    have htenants (t : Task) (i : Slot) : home (Function.update (fun _ => Task.zero) 0 t i) =
        Function.update (fun _ => none) 0 (home t) i := by
      by_cases hi : i = 0
      · rw [hi, Function.update_self, Function.update_self]
      · rw [Function.update_of_ne hi, Function.update_of_ne hi]
        rfl
    unfold Homed tenants
    simp only [htenants]
    exact hlodge

theorem bootSpawn_homed (h : Homed False k) {file : Option FileData} (himg : UserImage file)
    (path : List UInt8) (parentPid : Int) : Homed False (bootSpawn k file path parentPid).2 := by
  unfold bootSpawn
  have hbuild := owned_execBuildImage [path] h.owned (fun _ hc => hc.elim) himg
  cases he : execBuildImage file [path] k.vm with
  | mk img vm =>
    rw [he] at hbuild
    rcases hbuild with ⟨hnone, ho⟩ | ⟨img, hsome, h0, hroot, -, ho⟩
    · obtain rfl := hnone
      exact h.of_owned ho
    · obtain rfl := hsome
      dsimp only
      obtain ⟨hnew, hfail⟩ := schedSpawn_homes (k := k.setVm vm) h rfl h0 hroot ho img.entry
        img.userRsp parentPid
      cases hsp : schedSpawnUserTask (k.setVm vm) img.pml4Phys img.entry img.userRsp
          parentPid with
      | mk pid k₁ =>
        rw [hsp] at hnew hfail
        cases pid with
        | none =>
          obtain ⟨htenants, hvm⟩ := hfail rfl
          refine h.of_memory htenants ?_
          rw [hvm]
          exact ho.mono subset_rfl subset_rfl (Set.subset_insert _ _)
        | some pid =>
          have hk₁ : Homed False k₁ := hnew pid rfl
          dsimp only
          split
          · exact hk₁
          · exact hk₁.same (SameHomes.setTask rfl)

theorem schedStart_homed (h : Homed c k) (hs : schedStart k = some k') : Homed c k' := by
  unfold schedStart at hs
  split at hs
  · cases hs
  next first hfirst =>
    cases hs
    have hfound := List.find?_some hfirst
    obtain ⟨-, hready⟩ := of_decide_eq_true hfound
    have hhome : home { k.tasks first with state := .running } = home (k.tasks first) :=
      home_congr ⟨fun h => TaskState.noConfusion h, fun h => by rw [hready] at h; cases h⟩ rfl rfl
    have hrun : Homed c (k.modTask first fun t => { t with state := .running }) :=
      h.same (SameHomes.setTask hhome)
    exact hrun.of_owned (owned_cr3 hrun.owned _)

/-- The booted machine has its tenancies in order. -/
theorem boot_homed {vm : Vm} {init rudod : Option FileData} (hvm : BootMemory vm)
    (hinit : UserImage init) (hrudod : UserImage rudod) (h : boot vm init rudod = some k) :
    Homed False k := by
  unfold boot at h
  split at h
  · cases h
  next k₀ h₀ =>
    have hk₀ : Homed False k₀ := schedInit_homed hvm h₀
    have hk₁ := bootSpawn_homed hk₀ hinit (pathBytes "/bin/init") 0
    split at h
    · cases h
    next k₁ he =>
      rw [he] at hk₁
      exact schedStart_homed (bootSpawn_homed hk₁ hrudod (pathBytes "/bin/rudod") 1) h

end Boot

section Ownership

variable {k k₀ : Kernel}

/-- A frame in the user half of the address space of a live task: a table for
a path of up to three indices, a page for a path of four. -/
structure UserFrame (k : Kernel) (i : Slot) (p : List Idx) (f : Nat) : Prop where
  live : (k.tasks i).state ≠ .free
  space : (k.tasks i).pml4Phys ≠ 0
  user : ∀ j ∈ p.head?, j.val < 256
  length : p.length ≤ 4
  at_path : node child k.vm.mem (frameOf (k.tasks i).pml4Phys) p = some f

/-- No frame of usable memory that a live task uses is free, and none is shown
by two leaf entries. -/
structure FramesOwned (k : Kernel) : Prop where
  used : ∀ {i p f}, UserFrame k i p f → k.vm.usable f = true → ¬ k.vm.pmm.Free f
  unshared : ∀ {i p j q f}, UserFrame k i p f → UserFrame k j q f → p.length = 4 →
    q.length = 4 → k.vm.usable f = true → i = j ∧ p = q

theorem UserFrame.tenant {i : Slot} {p : List Idx} {f : Nat} (h : UserFrame k i p f) :
    tenants k i = some ⟨(k.tasks i).pml4Phys, (k.tasks i).kstack⟩ := home_of_live h.live

theorem UserFrame.reach {i : Slot} {p : List Idx} {f : Nat} (h : UserFrame k i p f) :
    Reach userFormat (roots (tenants k)) k.vm.mem 4 (frameOf (k.tasks i).pml4Phys) p f :=
  ⟨Housed.root_mem h.tenant h.space, h.user, h.length, h.at_path⟩

theorem UserFrame.leaf {i : Slot} {p : List Idx} {f : Nat} (h : UserFrame k i p f)
    (hl : p.length = 4) :
    Leaf userFormat (roots (tenants k)) k.vm.mem (frameOf (k.tasks i).pml4Phys) p f :=
  ⟨Housed.root_mem h.tenant h.space, h.user, hl, h.at_path⟩

theorem Housed.framesOwned {c : Prop} (h : Homed c k) : FramesOwned k := by
  constructor
  · intro i p f hf _ hfree
    exact h.owned.freeApart.apart f hfree _ _ hf.reach
  · intro i p j q f hf hf' hp hq _
    obtain ⟨hr, hpq⟩ := h.owned.single (hf.leaf hp) (hf'.leaf hq)
    exact ⟨h.root_inj hf.tenant hf'.tenant ⟨hf.space, rfl⟩ ⟨hf'.space, hr.symm⟩, hpq⟩

/-- In every tidy run after boot, frames in use are not free and no page is
shared. -/
theorem frames_owned_of_tidy {vm : Vm} {init rudod : Option FileData} {es : List Event}
    (hvm : BootMemory vm) (hinit : UserImage init) (hrudod : UserImage rudod)
    (hboot : boot vm init rudod = some k₀) (hcond : Run.Along step Tidy k₀ es)
    (hrun : Run.run step k₀ es = some k) : FramesOwned k := by
  have hstep : ∀ k e k', Sane k ∧ Homed False k → Tidy k e → Sys.step k e = some k' →
      Sane k' ∧ Homed False k' :=
    fun k e k' h ht he => ⟨h.1.step he, h.2.step h.1 ht False.elim he⟩
  have hstart := boot_started hboot
  exact (Run.invariant_along hstep ⟨hstart.sane, boot_homed hvm hinit hrudod hboot⟩ hcond
    hrun).2.framesOwned

/-- The first process maps two pages, gives one back and forks. -/
def mapAndFork : List Event :=
  .resume :: call (.mmap 0x2000) ++ call (.munmap 0x50000000 0x1000) ++ call (.brk 0x402000) ++
    call .fork

theorem frames_owned_of_tidy_mapAndFork : ∃ k₀ k, boot smallVm (some smallProgram) none = some k₀ ∧
    Run.run step k₀ mapAndFork = some k ∧ (k.tasks 2).state = .ready ∧ FramesOwned k := by
  have hrun : ∃ k₀, boot smallVm (some smallProgram) none = some k₀ ∧
      ∃ k, Run.runIf step Tidy k₀ mapAndFork = some k ∧ (k.tasks 2).state = .ready := by
    decide +kernel
  obtain ⟨k₀, hboot, k, hrun, hchild⟩ := hrun
  obtain ⟨hcond, hrun⟩ := Run.runIf_eq_some hrun
  exact ⟨k₀, k, hboot, hrun, hchild, frames_owned_of_tidy ⟨by decide, fun _ _ => rfl⟩ (by decide)
    (by decide) hboot hcond hrun⟩

/-- The heap of the first process grows by a page and shrinks again: the page
is free and still mapped. -/
theorem shrunk_heap_stays_mapped : ∃ k₀, boot smallVm (some smallProgram) none = some k₀ ∧
    ∃ k, Run.run step k₀ (.resume :: call (.brk 0x402000) ++ call (.brk 0x401000)) = some k ∧
    ¬ FramesOwned k := by
  have hrun : ∃ k₀, boot smallVm (some smallProgram) none = some k₀ ∧
      ∃ k, Run.run step k₀ (.resume :: call (.brk 0x402000) ++ call (.brk 0x401000)) = some k ∧
      (k.tasks 1).state ≠ .free ∧ (k.tasks 1).pml4Phys ≠ 0 ∧
      ∃ f ∈ node child k.vm.mem (frameOf (k.tasks 1).pml4Phys) (pagePath 0x401000),
        k.vm.usable f = true ∧ f < k.vm.pmm.totalPages ∧ k.vm.pmm.bitmap f = false := by
    decide +kernel
  obtain ⟨k₀, hboot, k, hrun, hlive, hspace, f, hf, husable, hlt, hbit⟩ := hrun
  refine ⟨k₀, hboot, k, hrun, fun h => ?_⟩
  exact h.used ⟨hlive, hspace, by decide +kernel, by decide, hf⟩ husable ⟨hlt, hbit⟩

end Ownership

end Mmix.Sys
