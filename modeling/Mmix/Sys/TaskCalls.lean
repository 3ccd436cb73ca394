import Mmix.Sys.MemoryCalls

/-!
# Tasks and tenancies

The system calls that create tasks, replace their images and collect the
dead. A frame passes from the allocator to one tenant and back; no two tenants
ever hold the same one.
-/

namespace Mmix.Sys

open Mm Fs Proc Kernel Forest

section Calls

variable {c : Prop} {k k' : Kernel}

theorem tenants_update {i : Slot} {t : Task} (h : k'.tasks = Function.update k.tasks i t) :
    tenants k' = Function.update (tenants k) i (home t) := by
  funext j
  unfold tenants
  rw [h]
  by_cases hj : j = i
  · rw [hj, Function.update_self, Function.update_self]
  · rw [Function.update_of_ne hj, Function.update_of_ne hj]

/-- A new task takes over an address space, or the attempt leaves things as
they are. -/
theorem schedSpawn_homes {T : Tenants} {s : Vm} (h : Housed c T s) (hT : tenants k = T)
    {pml4 : Word} (h0 : pml4 ≠ 0) (hroot : frameOf pml4 ∉ roots T)
    (ho : Owned (kstacks T) {_r | c} (insert (frameOf pml4) (roots T)) k.vm)
    (entry rsp : Word) (parentPid : Int) :
    (∀ pid, (schedSpawnUserTask k pml4 entry rsp parentPid).1 = some pid →
      Homed c (schedSpawnUserTask k pml4 entry rsp parentPid).2) ∧
    ((schedSpawnUserTask k pml4 entry rsp parentPid).1 = none →
      tenants (schedSpawnUserTask k pml4 entry rsp parentPid).2 = T ∧
        (schedSpawnUserTask k pml4 entry rsp parentPid).2.vm = k.vm) := by
  unfold schedSpawnUserTask
  cases halloc : allocSlot k with
  | none =>
    refine ⟨fun pid he => ?_, fun _ => ⟨hT, rfl⟩⟩
    cases he
  | some i =>
    have hnone : T i = none := by
      rw [← hT]
      exact if_pos (allocSlot_free halloc)
    dsimp only
    cases hp : pmmAlloc kstackPages k.vm.pmm with
    | mk kstack pmm =>
      cases kstack with
      | none =>
        refine ⟨fun pid he => ?_, fun _ => ⟨?_, ?_⟩⟩
        · cases he
        · rw [tenants_update (k := k) rfl, ← hT]
          exact Function.update_eq_self_iff.mpr ((hT ▸ hnone).symm)
        · rw [pmmAlloc_none hp]
          rfl
      | some kstack =>
        refine ⟨fun pid _ => ?_, fun he => ?_⟩
        · obtain ⟨htake, hnew⟩ := ho.take hp
          unfold Homed
          rw [tenants_update (k := k) rfl, hT]
          have hpages := stackPages_some pml4 kstack
          have hnewRoot := root_of_ne_zero (t := ⟨pml4, some kstack⟩) h0
          refine h.lodge (fun _ => h0) (fun r hr => ?_) (fun f hf => ?_) ?_
          · rw [hnewRoot] at hr
            exact hr ▸ hroot
          · rw [hpages] at hf
            exact hnew f hf.1 hf.2
          · rw [hpages, hnewRoot, Set.union_singleton]
            exact htake
        · cases he

theorem Housed.sysFork (h : Homed c k) : Homed c (sysFork k) := by
  unfold Sys.sysFork
  by_cases hentry : k.cur.userEntry = 0
  · rw [if_pos hentry]
    exact h.same (SameHomes.finish k _)
  rw [if_neg hentry]
  have hfork := h.owned.pmapFork k.cur.pml4Phys
  cases hf : pmapFork k.vm k.cur.pml4Phys with
  | mk child vm =>
    rw [hf] at hfork
    dsimp only at hfork ⊢
    rcases hfork with ⟨h0, ho⟩ | ⟨h0, hroot, -, ho⟩
    · rw [if_pos h0]
      exact h.finish ho _
    rw [if_neg h0]
    have hspawn := schedSpawn_homes (k := k.setVm { vm with cr3 := k.cur.pml4Phys }) h rfl h0 hroot
      (owned_cr3 ho _) k.cpu.rip k.cpu.rsp k.cur.pid
    have hcur : (k.setVm { vm with cr3 := k.cur.pml4Phys }).cur = k.cur := rfl
    have hcpu : (k.setVm { vm with cr3 := k.cur.pml4Phys }).cpu = k.cpu := rfl
    rw [hcur, hcpu]
    cases hsp : schedSpawnUserTask (k.setVm { vm with cr3 := k.cur.pml4Phys }) child k.cpu.rip
        k.cpu.rsp k.cur.pid with
    | mk pid k₁ =>
      rw [hsp] at hspawn
      cases pid with
      | none =>
        obtain ⟨htenants, hvm⟩ := hspawn.2 rfl
        have hback : Owned (kstacks (tenants k)) {_r | c} (roots (tenants k))
            (pmapDestroy k₁.vm child) := by
          rw [hvm]
          refine ((owned_cr3 ho k.cur.pml4Phys).pmapDestroy (Set.mem_insert _ _)).mono
            subset_rfl subset_rfl ?_
          rw [Set.insert_sdiff_self_of_notMem hroot]
        have hgone : Homed c (k₁.setVm (pmapDestroy k₁.vm child)) :=
          h.of_memory ((tenants_setVm k₁ _).trans htenants) hback
        exact hgone.same (SameHomes.finish _ _)
      | some pid =>
        have hnew : Homed c k₁ := hspawn.1 pid rfl
        dsimp only
        split
        · exact hnew.same (SameHomes.finish k₁ _)
        next i _ =>
          refine hnew.same ?_
          exact (SameHomes.of_drift (forkInherit_drift i)).trans (SameHomes.finish _ _)

/-- A file that `sys_execve` goes on to load. -/
def loadable (file : Option FileData) : Bool := file.any elfOk

theorem execBuildImage_of_not_loadable {file : Option FileData} (h : loadable file = false)
    (argv : List (List UInt8)) (s : Vm) : execBuildImage file argv s = (none, s) := by
  unfold execBuildImage
  cases file with
  | none => rfl
  | some file => exact if_pos h

/-- A task moves to a new address space. -/
theorem Housed.newSpace (h : Homed c k) {i : Slot} {t : Task} (hlive : (k.tasks i).state ≠ .free)
    (htasks : k'.tasks = Function.update k.tasks i t) (hstate : t.state ≠ .free)
    (hstack : t.kstack = (k.tasks i).kstack) (h0 : t.pml4Phys ≠ 0)
    (hroot : frameOf t.pml4Phys ∉ roots (tenants k))
    (ho : Owned (kstacks (tenants k)) {_r | c} (insert (frameOf t.pml4Phys)
      (roots (tenants k) \ Tenant.root ⟨(k.tasks i).pml4Phys, (k.tasks i).kstack⟩)) k'.vm) :
    Homed c k' := by
  have hnew := root_of_ne_zero (t := ⟨t.pml4Phys, t.kstack⟩) h0
  unfold Homed
  rw [tenants_update htasks, home_of_live hstate]
  refine h.exchange (home_of_live hlive) hstack h0 (fun r hr => ?_) ?_
  · rw [hnew] at hr
    exact hr ▸ hroot
  · rw [hnew, Set.union_singleton]
    exact ho

theorem Housed.sysExecve (h : Homed c k) (hs : Sane k) (h0 : k.current ≠ 0) {pathNull : Bool}
    {file : Option FileData} {argv : List (List UInt8)} (hc : c → loadable file = false)
    (hseg : ∀ f, file = some f → ∀ ph ∈ loadHeaders f.data, UserSegment ph) :
    Homed c (sysExecve k pathNull file argv) := by
  unfold Sys.sysExecve
  split
  · exact h.same (SameHomes.finish k _)
  dsimp only
  generalize (argv.take execMaxArgs).map (fun arg => arg.take (execMaxArgLen - 1)) = argv
  by_cases hload : loadable file = false
  · rw [execBuildImage_of_not_loadable hload]
    exact h.finish h.owned _
  have hnc : ¬ c := fun hc' => hload (hc hc')
  have hbuild := owned_execBuildImage argv h.owned (fun _ hc' => absurd hc' hnc) hseg
  cases he : execBuildImage file argv k.vm with
  | mk img vm =>
    rw [he] at hbuild
    rcases hbuild with ⟨hnone, ho⟩ | ⟨img, hsome, himg, hroot, -, ho⟩
    · obtain rfl := hnone
      exact h.finish ho _
    · obtain rfl := hsome
      obtain ⟨hold, hmem⟩ := h.cur_root hs h0
      have hdestroy := (owned_cr3 ho img.pml4Phys).pmapDestroy (Set.mem_insert_of_mem _ hmem)
      dsimp only
      generalize pmapDestroy { vm with cr3 := img.pml4Phys } k.cur.pml4Phys = vm₁ at hdestroy ⊢
      refine h.newSpace hs.cur_live rfl hs.cur_live rfl himg hroot ?_
      refine hdestroy.mono subset_rfl subset_rfl (Set.insert_subset ?_ fun r hr => ?_)
      · exact ⟨Set.mem_insert _ _, fun he => hroot (he ▸ hmem)⟩
      · exact ⟨Set.mem_insert_of_mem _ hr.1, fun he => hr.2 ⟨hold, he.symm⟩⟩

/-- Memory after a kernel stack was given back. -/
def freeStack (s : Vm) : Option Nat → Vm
  | none => s
  | some kstack => { s with pmm := pmmFree kstack kstackPages s.pmm }

theorem reapMemory_eq (s : Vm) (t : Task) : reapMemory s t =
    if t.pml4Phys ≠ 0 ∧ t.pml4Phys ≠ s.kernelPml4 then
      pmapDestroy (freeStack s t.kstack) t.pml4Phys else freeStack s t.kstack := by
  unfold reapMemory
  cases t.kstack <;> rfl

/-- What `reap_task` gives back is what the task held. -/
theorem Housed.reapMemory {T : Tenants} {s : Vm} {i : Slot} {t : Task} (h : Housed c T s)
    (hi : T i = some ⟨t.pml4Phys, t.kstack⟩) :
    Owned (kstacks T \ Tenant.stackPages ⟨t.pml4Phys, t.kstack⟩) {_r | c}
      (roots T \ Tenant.root ⟨t.pml4Phys, t.kstack⟩) (reapMemory s t) := by
  have hstack : Owned (kstacks T \ Tenant.stackPages ⟨t.pml4Phys, t.kstack⟩) {_r | c} (roots T)
      (freeStack s t.kstack) := by
    cases hk : t.kstack with
    | none => exact h.owned.mono Set.sdiff_subset subset_rfl subset_rfl
    | some kstack =>
      rw [hk] at hi
      have hpages := stackPages_some t.pml4Phys kstack
      rw [hpages]
      refine h.owned.give fun f hf => ⟨i, _, hi, ?_⟩
      rw [hpages]
      exact hf
  rw [reapMemory_eq]
  generalize freeStack s t.kstack = s₁ at hstack
  split
  next hroot =>
    refine (hstack.pmapDestroy (Housed.root_mem hi hroot.1)).mono subset_rfl subset_rfl ?_
    exact fun r hr => ⟨hr.1, fun he => hr.2 ⟨hroot.1, he.symm⟩⟩
  next => exact hstack.mono subset_rfl subset_rfl Set.sdiff_subset

theorem Housed.reapTask (h : Homed c k) {i : Slot} (hlive : (k.tasks i).state ≠ .free) :
    Homed c (reapTask k i) := by
  have hi : tenants k i = some ⟨(k.tasks i).pml4Phys, (k.tasks i).kstack⟩ := home_of_live hlive
  have ho := Housed.reapMemory (t := k.tasks i) h hi
  unfold Sys.reapTask
  generalize Sys.reapMemory k.vm (k.tasks i) = vm at ho
  have hsame : SameHomes (k.setVm vm) (fdsRelease (k.setVm vm) i) :=
    SameHomes.of_drift (fdsRelease_drift i)
  generalize fdsRelease (k.setVm vm) i = k₁ at hsame
  obtain ⟨cr3, hvm⟩ := hsame.vm
  have htenants : tenants (k₁.setTask i Task.zero) = Function.update (tenants k) i none := by
    rw [tenants_update (k := k₁) rfl, hsame.tenants]
    rfl
  have hvm' : (k₁.setTask i Task.zero).vm = { vm with cr3 := cr3 } := hvm
  unfold Homed
  rw [htenants, hvm']
  exact h.vacate hi (owned_cr3 ho cr3)

theorem Housed.still (h : Homed c k) (hs : Sane k) (hm : Moves Policy.still k k') : Homed c k' :=
  h.same (SameHomes.moves id hs hm)

theorem Housed.waitpidRound (h : Homed c k) (hs : Sane k) (h0 : k.current ≠ 0) (pid : Word) :
    Homed c (waitpidRound k pid) := by
  unfold Sys.waitpidRound
  split
  next i hfind =>
    have hfound := List.find?_some hfind
    obtain ⟨hchild, -, -⟩ := of_decide_eq_true hfound
    exact (h.reapTask hchild.1).same (SameHomes.finish _ _)
  next hnone => exact h.still hs (waitpidWait_moves ⟨h0, trivial⟩ (waitpidRound_none hnone))

theorem Housed.store (h : Homed c k) (hs : Sane k) {va : Word} {byte : UInt8}
    (hst : store k va byte = some k') : Homed c k' := by
  unfold Sys.store at hst
  obtain ⟨hcond, heq⟩ := Option.ite_none_left_eq_some.mp hst
  cases heq
  have h0 : k.cur.pml4Phys ≠ 0 := fun hz => hcond (Or.inl hz)
  have hva : va.toNat < 2 ^ 47 := Nat.not_le.mp fun hle => hcond (Or.inr (Or.inr hle))
  have hroot := Housed.root_mem (tenants_cur hs) h0
  have hroom : [byte].length ≤ pageRoom va := by
    unfold pageRoom pageSize
    exact Nat.le_sub_of_add_le' (Nat.mod_lt _ (by decide))
  exact h.of_owned (owned_writeResolved h.owned hroot (userVa_of_lt hva) hroom)

theorem Housed.rudoWaitRound (h : Homed c k) (hs : Sane k) (h0 : k.current ≠ 0)
    (hr : rudoWaitRound k = some k') : Homed c k' := by
  by_cases hpanic : k.rudo.pending = true ∧ k.rudo.op = rudoOpPanic
  · unfold Sys.rudoWaitRound at hr
    rw [if_pos hpanic.1] at hr
    dsimp only at hr
    rw [if_pos hpanic.2] at hr
    obtain ⟨-, heq⟩ := Option.ite_none_left_eq_some.mp hr
    cases heq
    refine Housed.finish (k := { k with rudo := { k.rudo with pending := false }
                                        rudoFault := k.rudo.requester }) h ?_ _
    exact owned_writeResolved h.owned (h.cur_root hs h0).2 (by decide) (by decide)
  · refine h.still hs (rudoWaitRound_moves ⟨h0, trivial⟩ trivial (fun hp hop => ?_) hr)
    exact absurd ⟨hp, hop⟩ hpanic

/-- The fault makes the stack grow by a page. -/
def StackGrowth (s : Vm) (pml4Phys va errCode : Word) : Prop :=
  StackFault va errCode ∧ pmapResolve s pml4Phys (va &&& ~~~0xFFF) = 0

/-- The entry of an address in the upper half is not marked copy-on-write. -/
def UpperPlain (s : Vm) (pml4Phys va : Word) : Prop :=
  UserVa va ∨ ∀ cell ∈ pmapPte s pml4Phys va, s.mem cell.1 cell.2 &&& pteCow = 0

instance (s : Vm) (pml4Phys va : Word) : Decidable (UpperPlain s pml4Phys va) :=
  inferInstanceAs (Decidable (_ ∨ _))

/-- A page fault, given what the handler leaves of memory. -/
theorem Housed.of_handleFault (h : Homed c k) (hs : Sane k) {va errCode : Word}
    (ho : Owned (kstacks (tenants k)) {_r | c} (roots (tenants k))
      (pmapHandleFault k.vm k.cur.pml4Phys va errCode).2)
    (hf : pageFault k va errCode = some k') : Homed c k' := by
  unfold Sys.pageFault at hf
  cases he : pmapHandleFault k.vm k.cur.pml4Phys va errCode with
  | mk ok vm =>
    rw [he] at hf ho
    have hvm : Homed c (k.setVm vm) := h.of_owned ho
    cases ok with
    | true =>
      cases hf
      exact hvm
    | false =>
      obtain ⟨hcond, heq⟩ := Option.ite_none_left_eq_some.mp hf
      cases heq
      have huser : userMode (k.setVm vm).cur = true :=
        Bool.eq_true_of_not_eq_false fun hu => hcond (Or.inr hu)
      have hs' : Sane (k.setVm vm) := hs.moves (Change.memory (P := Policy.any) trivial vm).moves
      exact hvm.still hs' (faultDeath_moves (Active.of_userMode hs' trivial huser) trivial)

theorem Housed.pageFault (h : Homed c k) (hs : Sane k) {va errCode : Word}
    (hupper : UpperPlain k.vm k.cur.pml4Phys va)
    (hc : c → ¬ StackGrowth k.vm k.cur.pml4Phys va errCode)
    (hf : pageFault k va errCode = some k') : Homed c k' := by
  refine h.of_handleFault hs ?_ hf
  by_cases hz : k.cur.pml4Phys = 0
  · unfold pmapHandleFault
    rw [if_pos hz]
    exact h.owned
  · have hroot := Housed.root_mem (tenants_cur hs) hz
    refine h.owned.handleFault hroot hz (fun t i hcow => ?_) hc
    exact hupper.resolve_right fun hplain => hcow.2.2.2 (hplain (t, i) hcow.2.2.1)

end Calls

end Mmix.Sys
