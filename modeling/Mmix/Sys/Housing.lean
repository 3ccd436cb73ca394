import Mmix.Proc.Image
import Mmix.Sys.Boot

/-!
# Who lives where

Every live task has a kernel stack and, unless it is the idle task, an address
space of its own. The table of these tenancies is what memory management sees
of the task table: scheduling, pipes and signals leave it alone.
-/

namespace Mmix.Sys

open Mm Fs Proc Kernel Forest Function

/-- The memory of a task: the root of its address space and its kernel stack. -/
structure Tenant where
  pml4Phys : Word
  kstack : Option Nat

/-- The pages of the kernel stack. -/
def Tenant.stackPages (t : Tenant) : Set Nat :=
  {f | ∃ page, t.kstack = some page ∧ page ≤ f ∧ f < page + kstackPages}

theorem stackPages_some (pml4 : Word) (kstack : Nat) : Tenant.stackPages ⟨pml4, some kstack⟩ =
    {f | kstack ≤ f ∧ f < kstack + kstackPages} := by
  ext f
  constructor
  · rintro ⟨page, hpage, hf⟩
    cases hpage
    exact hf
  · exact fun hf => ⟨kstack, rfl, hf⟩

/-- The frame of the root, if there is an address space. -/
def Tenant.root (t : Tenant) : Set Nat := {r | t.pml4Phys ≠ 0 ∧ frameOf t.pml4Phys = r}

theorem root_of_ne_zero {t : Tenant} (h : t.pml4Phys ≠ 0) : t.root = {frameOf t.pml4Phys} := by
  ext r
  exact ⟨fun hr => hr.2.symm, fun hr => ⟨h, hr.symm⟩⟩

abbrev Tenants := Slot → Option Tenant

/-- The roots of all address spaces. -/
def roots (T : Tenants) : Set Nat := {r | ∃ i t, T i = some t ∧ r ∈ t.root}

/-- The pages of all kernel stacks. -/
def kstacks (T : Tenants) : Set Nat := {f | ∃ i t, T i = some t ∧ f ∈ t.stackPages}

/-- The tenants own their frames, no two of them the same; with `c`, every page
is counted. -/
structure Housed (c : Prop) (T : Tenants) (s : Vm) : Prop where
  owned : Owned (kstacks T) {_r | c} (roots T) s
  root_inj : ∀ {i j t t' r}, T i = some t → T j = some t' → r ∈ t.root → r ∈ t'.root → i = j
  stack_inj : ∀ {i j t t' f}, T i = some t → T j = some t' → f ∈ t.stackPages →
    f ∈ t'.stackPages → i = j
  user_root : ∀ {i t}, i ≠ 0 → T i = some t → t.pml4Phys ≠ 0

namespace Housed

variable {c : Prop} {T : Tenants} {s s' : Vm} {i : Slot} {t : Tenant}

/-- Memory changes and the tenants stay. -/
theorem of_owned (h : Housed c T s) (hs : Owned (kstacks T) {_r | c} (roots T) s') : Housed c T s' :=
  ⟨hs, h.root_inj, h.stack_inj, h.user_root⟩

theorem root_mem (ht : T i = some t) (h0 : t.pml4Phys ≠ 0) : frameOf t.pml4Phys ∈ roots T :=
  ⟨i, t, ht, h0, rfl⟩

/-- A tenant moves into an empty slot. -/
theorem lodge (h : Housed c T s) (h0 : i ≠ 0 → t.pml4Phys ≠ 0)
    (hroot : ∀ r ∈ t.root, r ∉ roots T) (hstack : ∀ f ∈ t.stackPages, f ∉ kstacks T)
    (hs : Owned (kstacks T ∪ t.stackPages) {_r | c} (roots T ∪ t.root) s') :
    Housed c (update T i (some t)) s' := by
  have hcases {j : Slot} {t' : Tenant} (hj : update T i (some t) j = some t') :
      (j = i ∧ t' = t) ∨ T j = some t' := by
    by_cases hji : j = i
    · rw [hji, update_self] at hj
      exact Or.inl ⟨hji, (Option.some.inj hj).symm⟩
    · rw [update_of_ne hji] at hj
      exact Or.inr hj
  have hroots : roots (update T i (some t)) ⊆ roots T ∪ t.root := by
    rintro r ⟨j, t', hj, hr⟩
    rcases hcases hj with ⟨-, rfl⟩ | hj
    · exact Or.inr hr
    · exact Or.inl ⟨j, t', hj, hr⟩
  have hstacks : kstacks (update T i (some t)) ⊆ kstacks T ∪ t.stackPages := by
    rintro f ⟨j, t', hj, hf⟩
    rcases hcases hj with ⟨-, rfl⟩ | hj
    · exact Or.inr hf
    · exact Or.inl ⟨j, t', hj, hf⟩
  refine ⟨hs.mono hstacks subset_rfl hroots, fun hj hj' hr hr' => ?_, fun hj hj' hf hf' => ?_,
    fun hne hj => ?_⟩
  · rcases hcases hj with ⟨rfl, rfl⟩ | hold
    · rcases hcases hj' with ⟨rfl, -⟩ | hold'
      · rfl
      · exact absurd ⟨_, _, hold', hr'⟩ (hroot _ hr)
    · rcases hcases hj' with ⟨rfl, rfl⟩ | hold'
      · exact absurd ⟨_, _, hold, hr⟩ (hroot _ hr')
      · exact h.root_inj hold hold' hr hr'
  · rcases hcases hj with ⟨rfl, rfl⟩ | hold
    · rcases hcases hj' with ⟨rfl, -⟩ | hold'
      · rfl
      · exact absurd ⟨_, _, hold', hf'⟩ (hstack _ hf)
    · rcases hcases hj' with ⟨rfl, rfl⟩ | hold'
      · exact absurd ⟨_, _, hold, hf⟩ (hstack _ hf')
      · exact h.stack_inj hold hold' hf hf'
  · rcases hcases hj with ⟨rfl, rfl⟩ | hj
    · exact h0 hne
    · exact h.user_root hne hj

theorem of_update_none {j : Slot} {t' : Tenant} (hj : update T i none j = some t') :
    j ≠ i ∧ T j = some t' := by
  by_cases hji : j = i
  · rw [hji, update_self] at hj
    cases hj
  · rw [update_of_ne hji] at hj
    exact ⟨hji, hj⟩

theorem roots_vacate (h : Housed c T s) (hi : T i = some t) :
    roots (update T i none) ⊆ roots T \ t.root := by
  rintro r ⟨j, t', hj, hr⟩
  obtain ⟨hne, hj⟩ := of_update_none hj
  exact ⟨⟨j, t', hj, hr⟩, fun hr' => hne (h.root_inj hj hi hr hr')⟩

theorem kstacks_vacate (h : Housed c T s) (hi : T i = some t) :
    kstacks (update T i none) ⊆ kstacks T \ t.stackPages := by
  rintro f ⟨j, t', hj, hf⟩
  obtain ⟨hne, hj⟩ := of_update_none hj
  exact ⟨⟨j, t', hj, hf⟩, fun hf' => hne (h.stack_inj hj hi hf hf')⟩

/-- The tenant of a slot moves out. -/
theorem vacate (h : Housed c T s) (hi : T i = some t)
    (hs : Owned (kstacks T \ t.stackPages) {_r | c} (roots T \ t.root) s') :
    Housed c (update T i none) s' :=
  ⟨hs.mono (h.kstacks_vacate hi) subset_rfl (h.roots_vacate hi),
    fun hj hj' => h.root_inj (of_update_none hj).2 (of_update_none hj').2,
    fun hj hj' => h.stack_inj (of_update_none hj).2 (of_update_none hj').2,
    fun hne hj => h.user_root hne (of_update_none hj).2⟩

/-- A tenant gives up its address space for another one. -/
theorem exchange {t' : Tenant} (h : Housed c T s) (hi : T i = some t) (hstack : t'.kstack = t.kstack)
    (h0 : t'.pml4Phys ≠ 0) (hroot : ∀ r ∈ t'.root, r ∉ roots T)
    (hs : Owned (kstacks T) {_r | c} (roots T \ t.root ∪ t'.root) s') :
    Housed c (update T i (some t')) s' := by
  have hpages : t'.stackPages = t.stackPages := by
    unfold Tenant.stackPages
    rw [hstack]
  have hv : Housed c (update T i none) s' :=
    h.vacate hi (hs.mono Set.sdiff_subset subset_rfl Set.subset_union_left)
  have hroots : roots (update T i none) ⊆ roots T \ t.root := roots_vacate h hi
  have hstacks : kstacks (update T i none) ⊆ kstacks T \ t.stackPages :=
    kstacks_vacate h hi
  have hlodge : Housed c (update (update T i none) i (some t')) s' := by
    refine hv.lodge (fun _ => h0) (fun r hr hold => hroot r hr (hroots hold).1)
      (fun f hf hold => (hstacks hold).2 (hpages ▸ hf)) (hs.mono ?_ subset_rfl ?_)
    · rw [hpages]
      refine Set.union_subset (hstacks.trans Set.sdiff_subset) fun f hf => ?_
      exact ⟨i, t, hi, hf⟩
    · exact Set.union_subset_union_left _ hroots
  rwa [update_idem] at hlodge

end Housed

section Tenants

variable {k k' k'' : Kernel} {P : Policy}

/-- What a slot of the task table holds of memory. -/
def home (t : Task) : Option Tenant :=
  if t.state = .free then none else some ⟨t.pml4Phys, t.kstack⟩

/-- The tenants according to the task table. -/
def tenants (k : Kernel) : Tenants := fun i => home (k.tasks i)

theorem tenants_setVm (k : Kernel) (vm : Vm) : tenants (k.setVm vm) = tenants k := rfl

theorem home_congr {t t' : Task} (hstate : t'.state = .free ↔ t.state = .free)
    (hpml4 : t'.pml4Phys = t.pml4Phys) (hstack : t'.kstack = t.kstack) : home t' = home t := by
  unfold home
  rw [hpml4, hstack]
  by_cases hf : t.state = .free
  · rw [if_pos hf, if_pos (hstate.mpr hf)]
  · rw [if_neg hf, if_neg fun h => hf (hstate.mp h)]

theorem home_of_live {t : Task} (h : t.state ≠ .free) : home t = some ⟨t.pml4Phys, t.kstack⟩ :=
  if_neg h

/-- The policy under which memory stays as it is. -/
def Policy.still : Policy := { Policy.any with mem := False }

/-- Tenants and memory are the same, but for the table in use. -/
structure SameHomes (k k' : Kernel) : Prop where
  tenants : tenants k' = tenants k
  vm : ∃ cr3, k'.vm = { k.vm with cr3 := cr3 }

namespace SameHomes

theorem refl (k : Kernel) : SameHomes k k := ⟨rfl, k.vm.cr3, rfl⟩

theorem trans (h : SameHomes k k') (h' : SameHomes k' k'') : SameHomes k k'' := by
  obtain ⟨c, hc⟩ := h.vm
  obtain ⟨c', hc'⟩ := h'.vm
  exact ⟨h'.tenants.trans h.tenants, c', by rw [hc', hc]⟩

theorem setTask {i : Slot} {t : Task} (h : home t = home (k.tasks i)) :
    SameHomes k (k.setTask i t) := by
  refine ⟨funext fun j => ?_, k.vm.cr3, rfl⟩
  unfold Sys.tenants Kernel.setTask
  dsimp only
  by_cases hj : j = i
  · rw [hj, update_self, h]
  · rw [update_of_ne hj]

theorem modCur {f : Task → Task} (h : home (f k.cur) = home k.cur) : SameHomes k (k.modCur f) :=
  setTask h

theorem of_drift (h : Drift False k k') : SameHomes k k' := by
  obtain ⟨hvm, hpml4, hstack⟩ := h.space.resolve_left id
  exact ⟨funext fun i => home_congr (h.tasks i).free_iff (hpml4 i) (hstack i),
    k.vm.cr3, hvm⟩

theorem schedYield (hrun : (k.tasks 0).Runnable) : SameHomes k (schedYield k) := by
  refine ⟨funext fun i => ?_, schedYield_vm⟩
  obtain ⟨u, hu⟩ := @schedYield_tasks k i
  refine home_congr (schedYield_free_iff hrun i) ?_ ?_ <;> rw [hu]

theorem finish (k : Kernel) (r : Int) : SameHomes k (k.finish r) := by
  obtain ⟨ht, -⟩ := modCur (k := k) (f := fun t => { t with cont := .user, rax := r }) rfl
  exact ⟨ht, k.vm.cr3, rfl⟩

theorem slay (i : Slot) (status : Int) : SameHomes k (slay k i status) := setTask rfl

theorem turn (hP : ¬ P.mem) (hs : Sane k) (h : Turn P k k') : SameHomes k k' := by
  cases h with
  | goto c r b =>
    obtain ⟨ht, -⟩ := modCur (k := k) (f := fun t => { t with cont := c, rax := r }) rfl
    exact ⟨ht, k.vm.cr3, rfl⟩
  | readPark => exact modCur rfl
  | writePark => exact modCur rfl
  | spawn h => exact absurd h hP
  | yield => exact schedYield hs.idle_runnable
  | block f h0 hf =>
    have hhome : home (f k.cur) = home k.cur := by
      have hlive := hs.cur_live
      cases hf with
      | read => exact home_congr ⟨fun h => TaskState.noConfusion h, fun h => absurd h hlive⟩ rfl rfl
      | write => exact home_congr ⟨fun h => TaskState.noConfusion h, fun h => absurd h hlive⟩ rfl rfl
      | waitpid => exact home_congr ⟨fun h => TaskState.noConfusion h, fun h => absurd h hlive⟩ rfl rfl
      | rudo => exact home_congr ⟨fun h => TaskState.noConfusion h, fun h => absurd h hlive⟩ rfl rfl
    exact (modCur hhome).trans (schedYield (hs.block h0 hf).1.idle_runnable)
  | die status => exact (slay _ _).trans (of_drift (markZombie_drift _ _))
  | terminate status =>
    exact (slay _ _).trans (of_drift ((markZombie_drift _ _).trans (fdsRelease_drift _)))
  | kill i =>
    have hsig : SameHomes k (k.modTask i fun t => t.addSig sigKill) := setTask rfl
    exact hsig.trans ((slay _ _).trans (of_drift (killParked_drift i)))
  | reap h => exact absurd h hP

theorem move (hP : ¬ P.mem) (hs : Sane k) (h : Move P k k') : SameHomes k k' := by
  cases h with
  | change hc =>
    have hd := hc.drift
    exact of_drift ⟨hd.tasks, hd.current, hd.nextPid, hd.pipes, hd.rings,
      Or.inr (hd.space.resolve_left hP)⟩
  | turn ht => exact turn hP hs ht

/-- A sequence of moves that leave memory alone. -/
theorem moves (hP : ¬ P.mem) (hs : Sane k) (h : Moves P k k') : SameHomes k k' := by
  induction h with
  | refl => exact refl k
  | tail hrest hlast ih => exact ih.trans (move hP (hs.moves hrest) hlast)

end SameHomes

end Tenants

end Mmix.Sys
