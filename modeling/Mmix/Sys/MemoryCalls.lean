import Mmix.Sys.Housing

/-!
# Memory calls and tenancies

The system calls that change memory, one by one: under which condition on
their arguments and on the state before the call the tenants keep what they
own. A counted machine (`c`) must in addition map no page but by `sys_fork`.
-/

namespace Mmix.Sys

open Mm Fs Proc Kernel Forest

/-- The tenants of the machine own their frames. -/
abbrev Homed (c : Prop) (k : Kernel) : Prop := Housed c (tenants k) k.vm

section Ranges

/-- No page of the range is mapped. -/
def Unmapped (s : Vm) (pml4 va : Word) (pages : Nat) : Prop :=
  ∀ j < pages, pmapResolve s pml4 (va + BitVec.ofNat 64 (j * 4096)) = 0

/-- No page of the range that lies in the upper half is mapped. -/
def UpperUnmapped (s : Vm) (pml4 va : Word) (pages : Nat) : Prop :=
  ∀ j < pages, UserVa (va + BitVec.ofNat 64 (j * 4096)) ∨
    pmapResolve s pml4 (va + BitVec.ofNat 64 (j * 4096)) = 0

instance (s : Vm) (pml4 va : Word) (pages : Nat) : Decidable (Unmapped s pml4 va pages) :=
  inferInstanceAs (Decidable (∀ _ < _, _))

instance (s : Vm) (pml4 va : Word) (pages : Nat) : Decidable (UpperUnmapped s pml4 va pages) :=
  inferInstanceAs (Decidable (∀ _ < _, _))

/-- The pages up to an address in the user half. -/
theorem userRange_pageCount {va stop : Word} (h : stop.toNat ≤ 2 ^ 47) :
    UserRange va (pageCount va stop) := by
  unfold pageCount pageSize
  split
  next hlt =>
    apply userRange_of_le
    have hlt' : va.toNat < stop.toNat := hlt
    have hsub : (stop - va).toNat = stop.toNat - va.toNat := BitVec.toNat_sub_of_le hlt'.le
    rw [hsub]
    omega
  next =>
    intro j hj
    omega

variable {K E R : Set Nat} {s : Vm} {pml4 va : Word} {pages : Nat}

/-- Clearing an entry maps nothing new. -/
theorem node_clear {mem : PhysMem} {t : Nat} {i : Idx} {r : Nat} {p : List Idx} {f : Nat}
    (h : node child (setCell mem t i 0) r p = some f) : node child mem r p = some f := by
  induction p generalizing r with
  | nil => exact h
  | cons j p ih =>
    rw [node_cons, Option.bind_eq_some_iff] at h ⊢
    obtain ⟨g, hg, hrest⟩ := h
    refine ⟨g, ?_, ih hrest⟩
    unfold setCell at hg
    split at hg
    · rw [child_zero] at hg
      cases hg
    · exact hg

theorem pmapResolve_clear {t : Nat} {i : Idx} (h : pmapResolve s pml4 va = 0) :
    pmapResolve (s.setEntry t i 0) pml4 va = 0 := by
  rw [pmapResolve_eq]
  cases hn : node child (s.setEntry t i 0).mem (frameOf pml4) (pagePath va) with
  | none => rfl
  | some f =>
    rw [pmapResolve_eq, node_clear hn] at h
    exact h

/-- Unmapping a page maps no other one. -/
theorem UpperUnmapped.unmap (h : UpperUnmapped s pml4 va pages) (pa : Word) {va' : Word} :
    UpperUnmapped (pmapUnmap (destroyLeaf s pa) pml4 va') pml4 va pages := by
  intro j hj
  refine (h j hj).imp_right fun hz => ?_
  have hz' : pmapResolve (destroyLeaf s pa) pml4 (va + BitVec.ofNat 64 (j * 4096)) = 0 := by
    rw [pmapResolve_eq, destroyLeaf_mem, ← pmapResolve_eq]
    exact hz
  unfold pmapUnmap
  split
  · exact hz'
  · exact pmapResolve_clear hz'

theorem owned_munmapLoop (h : Owned K E R s) (hr : frameOf pml4 ∈ R)
    (hva : UpperUnmapped s pml4 va pages) : Owned K E R (munmapLoop pml4 pages va s) := by
  induction pages generalizing va s with
  | zero => exact h
  | succ pages ih =>
    obtain ⟨hfirst, hrest⟩ := forall_pages_succ
      (Q := fun va => UserVa va ∨ pmapResolve s pml4 va = 0) hva
    unfold munmapLoop
    dsimp only
    by_cases hz : pmapResolve s pml4 va = 0
    · rw [if_pos hz]
      exact ih h hrest
    · rw [if_neg hz]
      refine ih (h.unmap hr (hfirst.resolve_right hz) hz) ?_
      exact UpperUnmapped.unmap hrest _

/-- The shrinking loop of `sys_brk` on a range without pages. -/
theorem brkShrink_of_unmapped (hva : Unmapped s pml4 va pages) :
    brkShrink pml4 pages va s = s := by
  induction pages generalizing va with
  | zero => rfl
  | succ pages ih =>
    obtain ⟨hfirst, hrest⟩ := forall_pages_succ (Q := fun va => pmapResolve s pml4 va = 0) hva
    unfold brkShrink
    dsimp only
    rw [if_pos hfirst]
    exact ih hrest

end Ranges

section Calls

variable {c : Prop} {k k' : Kernel}

/-- The table in use plays no part. -/
theorem owned_cr3 {K E R : Set Nat} {s : Vm} (h : Owned K E R s) (cr3 : Word) :
    Owned K E R { s with cr3 := cr3 } :=
  h.of_agree (fun _ _ _ _ => rfl) rfl rfl rfl

theorem Housed.same (h : Homed c k) (hs : SameHomes k k') : Homed c k' := by
  obtain ⟨cr3, hvm⟩ := hs.vm
  unfold Homed
  rw [hs.tenants, hvm]
  exact h.of_owned (owned_cr3 h.owned cr3)

/-- Memory changes, and the call returns. -/
theorem Housed.finish {vm : Vm} (h : Homed c k)
    (ho : Owned (kstacks (tenants k)) {_r | c} (roots (tenants k)) vm) (r : Int) :
    Homed c ((k.setVm vm).finish r) := by
  have hvm : Homed c (k.setVm vm) := h.of_owned ho
  exact hvm.same (SameHomes.finish _ r)

theorem tenants_cur (hs : Sane k) :
    tenants k k.current = some ⟨k.cur.pml4Phys, k.cur.kstack⟩ := home_of_live hs.cur_live

/-- The address space of the current task. -/
theorem Housed.cur_root (h : Homed c k) (hs : Sane k) (h0 : k.current ≠ 0) :
    k.cur.pml4Phys ≠ 0 ∧ frameOf k.cur.pml4Phys ∈ roots (tenants k) := by
  have hroot := h.user_root h0 (tenants_cur hs)
  exact ⟨hroot, Housed.root_mem (tenants_cur hs) hroot⟩

/-- Its tables and pages are apart from one another and from the free frames. -/
theorem Housed.cur_space (h : Homed c k) (hs : Sane k) (h0 : k.current ≠ 0) :
    Separated userFormat {frameOf k.cur.pml4Phys} k.vm.mem ∧
      FreeApart {frameOf k.cur.pml4Phys} k.vm := by
  have hsub : {frameOf k.cur.pml4Phys} ⊆ roots (tenants k) :=
    Set.singleton_subset_iff.mpr (h.cur_root hs h0).2
  have howned := h.owned.mono subset_rfl subset_rfl hsub
  exact ⟨howned.separated, howned.freeApart⟩

/-- Where `sys_mmap` maps the next page. -/
def mmapBase (t : Task) : Word := if t.mmapTop = 0 then mmapAreaBase else t.mmapTop

/-- The number of pages that `sys_mmap` is going to map. -/
def mmapPages (t : Task) (len : Word) : Nat :=
  if len = 0 ∨ mmapAreaEnd < mmapBase t + pageUp len then 0
  else pageCount (mmapBase t) (mmapBase t + pageUp len)

/-- `sys_mmap` maps its pages and leaves the rest of memory and the tenants. -/
theorem sysMmap_memory (k : Kernel) (len : Word) :
    (sysMmap k len).vm =
        (mapFresh k.cur.pml4Phys (mmapPages k.cur len) (mmapBase k.cur) k.vm).2 ∧
      tenants (sysMmap k len) = tenants k := by
  have hedit : SameHomes k (k.modCur fun t => { t with mmapTop := mmapBase t }) :=
    SameHomes.modCur rfl
  have hcur : (k.modCur fun t => { t with mmapTop := mmapBase t }).cur =
      { k.cur with mmapTop := mmapBase k.cur } := modCur_cur _
  have hvm : (k.modCur fun t => { t with mmapTop := mmapBase t }).vm = k.vm := rfl
  unfold sysMmap mmapPages
  by_cases hlen : len = 0
  · rw [if_pos hlen, if_pos (Or.inl hlen)]
    exact ⟨rfl, (SameHomes.finish k _).tenants⟩
  rw [if_neg hlen]
  have hk : (k.modCur fun t => { t with
      mmapTop := if t.mmapTop = 0 then mmapAreaBase else t.mmapTop }) =
      k.modCur fun t => { t with mmapTop := mmapBase t } := rfl
  dsimp only
  rw [hk, hcur]
  dsimp only
  rw [hvm]
  generalize (k.modCur fun t => { t with mmapTop := mmapBase t }) = k₁ at hedit hvm
  by_cases hend : mmapAreaEnd < mmapBase k.cur + pageUp len
  · rw [if_pos hend, if_pos (Or.inr hend)]
    exact ⟨hvm, (hedit.trans (SameHomes.finish k₁ _)).tenants⟩
  rw [if_neg hend, if_neg (not_or.mpr ⟨hlen, hend⟩)]
  cases mapFresh k.cur.pml4Phys (pageCount (mmapBase k.cur) (mmapBase k.cur + pageUp len))
      (mmapBase k.cur) k.vm with
  | mk ok vm =>
    have htenants : tenants (k₁.setVm vm) = tenants k := hedit.tenants
    cases ok with
    | false => exact ⟨rfl, (SameHomes.finish _ _).tenants.trans htenants⟩
    | true =>
      have hmod : SameHomes (k₁.setVm vm) ((k₁.setVm vm).modCur fun t =>
          { t with mmapTop := t.mmapTop + pageUp len }) := SameHomes.modCur rfl
      exact ⟨rfl, (hmod.trans (SameHomes.finish _ _)).tenants.trans htenants⟩

/-- A call that keeps the tenants and what they own. -/
theorem Housed.of_memory (h : Homed c k) (htenants : tenants k' = tenants k)
    (ho : Owned (kstacks (tenants k)) {_r | c} (roots (tenants k)) k'.vm) : Homed c k' := by
  unfold Homed
  rw [htenants]
  exact h.of_owned ho

theorem Housed.sysMmap (h : Homed c k) (hs : Sane k) (h0 : k.current ≠ 0) {len : Word}
    (hc : c → mmapPages k.cur len = 0) : Homed c (sysMmap k len) := by
  obtain ⟨-, hroot⟩ := h.cur_root hs h0
  obtain ⟨hvm, htenants⟩ := sysMmap_memory k len
  refine h.of_memory htenants ?_
  rw [hvm]
  refine owned_mapFresh h.owned hroot hc ?_
  unfold mmapPages
  split
  · intro j hj
    omega
  next hend =>
    apply userRange_pageCount
    have hle : ¬ (mmapAreaEnd.toNat < (mmapBase k.cur + pageUp len).toNat) :=
      fun hlt => hend (Or.inr hlt)
    have hval : mmapAreaEnd.toNat = 0x6FFFF000 := rfl
    omega

/-- The arguments that `sys_brk` refuses. -/
def BrkRefused (t : Task) (addr : Word) : Prop := addr = 0 ∨ addr < t.brkBase ∨ brkLimit ≤ addr

instance (t : Task) (addr : Word) : Decidable (BrkRefused t addr) :=
  inferInstanceAs (Decidable (_ ∨ _))

/-- The number of pages that `sys_brk` is going to map. -/
def brkGrowth (t : Task) (addr : Word) : Nat :=
  if BrkRefused t addr then 0 else pageCount (pageUp t.brkCur) (pageUp addr)

/-- The number of pages that `sys_brk` is going to give back. -/
def brkLoss (t : Task) (addr : Word) : Nat :=
  if BrkRefused t addr then 0 else pageCount (pageUp addr) (pageUp t.brkCur)

theorem toNat_pageUp (w : Word) : (pageUp w).toNat = (w.toNat + 4095) % 2 ^ 64 / 4096 * 4096 := by
  unfold pageUp
  rw [toNat_pageDown, BitVec.toNat_add]
  rfl

theorem pageCount_of_le {va stop : Word} (h : ¬ va < stop) : pageCount va stop = 0 := if_neg h

/-- `sys_brk` does one or the other. -/
theorem brkLoss_eq_zero {t : Task} {addr : Word} (h : brkGrowth t addr ≠ 0) : brkLoss t addr = 0 := by
  unfold brkGrowth at h
  unfold brkLoss
  split at h
  · exact absurd rfl h
  next href =>
    rw [if_neg href]
    refine pageCount_of_le fun hlt => h (pageCount_of_le fun hlt' => ?_)
    have h₁ : (pageUp addr).toNat < (pageUp t.brkCur).toNat := hlt
    have h₂ : (pageUp t.brkCur).toNat < (pageUp addr).toNat := hlt'
    omega

/-- `sys_brk` maps or gives back its pages. -/
theorem sysBrk_memory (k : Kernel) (addr : Word) :
    (sysBrk k addr).vm = brkShrink k.cur.pml4Phys (brkLoss k.cur addr) (pageUp addr)
        (mapFresh k.cur.pml4Phys (brkGrowth k.cur addr) (pageUp k.cur.brkCur) k.vm).2 ∧
      tenants (sysBrk k addr) = tenants k := by
  unfold sysBrk brkLoss brkGrowth
  by_cases href : addr = 0 ∨ addr < k.cur.brkBase ∨ brkLimit ≤ addr
  · have href' : BrkRefused k.cur addr := href
    rw [if_pos href, if_pos href', if_pos href']
    exact ⟨rfl, (SameHomes.finish k _).tenants⟩
  have href' : ¬ BrkRefused k.cur addr := href
  rw [if_neg href, if_neg href', if_neg href']
  dsimp only
  have htenants (vm : Vm) : tenants (((k.setVm vm).modCur fun t =>
      { t with brkCur := addr }).finish addr.toInt) = tenants k := by
    have hmod : SameHomes (k.setVm vm) ((k.setVm vm).modCur fun t => { t with brkCur := addr }) :=
      SameHomes.modCur rfl
    exact (hmod.trans (SameHomes.finish _ _)).tenants
  refine ⟨?_, htenants _⟩
  by_cases hlt : pageUp k.cur.brkCur < pageUp addr
  · have hle : ¬ pageUp addr < pageUp k.cur.brkCur := fun h => by
      have h₁ : (pageUp k.cur.brkCur).toNat < (pageUp addr).toNat := hlt
      have h₂ : (pageUp addr).toNat < (pageUp k.cur.brkCur).toNat := h
      omega
    rw [if_pos hlt, pageCount_of_le hle]
    rfl
  · rw [if_neg hlt, pageCount_of_le hlt]
    rfl

theorem Housed.sysBrk (h : Homed c k) (hs : Sane k) (h0 : k.current ≠ 0) {addr : Word}
    (hc : c → brkGrowth k.cur addr = 0)
    (hloss : Unmapped k.vm k.cur.pml4Phys (pageUp addr) (brkLoss k.cur addr)) :
    Homed c (sysBrk k addr) := by
  obtain ⟨-, hroot⟩ := h.cur_root hs h0
  obtain ⟨hvm, htenants⟩ := sysBrk_memory k addr
  refine h.of_memory htenants ?_
  rw [hvm]
  have hgrow : Owned (kstacks (tenants k)) {_r | c} (roots (tenants k)) (mapFresh k.cur.pml4Phys
      (brkGrowth k.cur addr) (pageUp k.cur.brkCur) k.vm).2 := by
    refine owned_mapFresh h.owned hroot hc ?_
    unfold brkGrowth
    split
    · intro j hj
      omega
    next href =>
      have hlt : ¬ (brkLimit.toNat ≤ addr.toNat) := fun hle => href (Or.inr (Or.inr hle))
      have hval : brkLimit.toNat = 0x40000000 := rfl
      apply userRange_pageCount
      rw [toNat_pageUp]
      omega
  have hsame : brkShrink k.cur.pml4Phys (brkLoss k.cur addr) (pageUp addr) (mapFresh
      k.cur.pml4Phys (brkGrowth k.cur addr) (pageUp k.cur.brkCur) k.vm).2 = (mapFresh
      k.cur.pml4Phys (brkGrowth k.cur addr) (pageUp k.cur.brkCur) k.vm).2 := by
    by_cases hg : brkGrowth k.cur addr = 0
    · rw [hg]
      exact brkShrink_of_unmapped hloss
    · rw [brkLoss_eq_zero hg]
      rfl
  rw [hsame]
  exact hgrow

/-- The number of pages that `sys_munmap` goes through. -/
def munmapPages (addr len : Word) : Nat :=
  if len = 0 ∨ addr &&& 0xFFF ≠ 0 then 0 else pageCount addr (addr + pageUp len)

/-- `sys_munmap` unmaps its pages. -/
theorem sysMunmap_memory (k : Kernel) (addr len : Word) :
    (sysMunmap k addr len).vm = munmapLoop k.cur.pml4Phys (munmapPages addr len) addr k.vm ∧
      tenants (sysMunmap k addr len) = tenants k := by
  unfold sysMunmap munmapPages
  split
  · exact ⟨rfl, (SameHomes.finish k _).tenants⟩
  · exact ⟨rfl, (SameHomes.finish _ _).tenants⟩

theorem Housed.sysMunmap (h : Homed c k) (hs : Sane k) (h0 : k.current ≠ 0) {addr len : Word}
    (hupper : UpperUnmapped k.vm k.cur.pml4Phys addr (munmapPages addr len)) :
    Homed c (sysMunmap k addr len) := by
  obtain ⟨-, hroot⟩ := h.cur_root hs h0
  obtain ⟨hvm, htenants⟩ := sysMunmap_memory k addr len
  refine h.of_memory htenants ?_
  rw [hvm]
  exact owned_munmapLoop h.owned hroot hupper

end Calls

end Mmix.Sys
