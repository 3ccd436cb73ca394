import Mmix.Sys.Brk
import Mmix.Sys.FrameRuns

/-!
# The heap over whole runs

Runs of calls of `sys_brk` by one task, while the rest of the machine takes pages and
gives them back. As long as the calls keep their contract the heap stays in order, so
the calls of a run all keep it exactly if none takes the break down by a page and there
is room for every growth.
-/

namespace Mmix.Sys

open Mm Fs Proc Kernel Forest

/-- A task with its heap, the pages that others hold, and the highest rounded break so far. -/
structure BrkSystem where
  kernel : Kernel
  held : List Nat
  peak : Nat

/-- A call of the task, or a page that others take or give back. -/
inductive BrkEvent where
  | brk (addr : Word)
  | take
  | give (f : Nat)

namespace BrkSystem

/-- One event. -/
def step (s : BrkSystem) : BrkEvent → Option BrkSystem
  | .brk addr =>
    let k := sysBrk s.kernel addr
    some { s with kernel := k, peak := max s.peak (pageUp k.cur.brkCur).toNat }
  | .take =>
    match allocFrame s.kernel.vm with
    | (none, _) => none
    | (some f, vm) => some { s with kernel := s.kernel.setVm vm, held := f :: s.held }
  | .give f =>
    if f ∈ s.held then
      some { s with
        kernel := s.kernel.setVm (freeFrame s.kernel.vm f)
        held := s.held.erase f }
    else none

/-- The call, if the event is one, keeps the contract. -/
def Keeps (s : BrkSystem) : BrkEvent → Prop
  | .brk addr => BrkContract s.kernel (sysBrk s.kernel addr) s.peak addr
  | _ => True

/-- The call, if the event is one, is one that keeps the contract. -/
def Serves (s : BrkSystem) : BrkEvent → Prop
  | .brk addr => BrkServes s.kernel addr
  | _ => True

/-- A task that has not used its heap yet, in an address space in order. -/
structure Start (s : BrkSystem) : Prop where
  separated : Separated userFormat {frameOf s.kernel.cur.pml4Phys} s.kernel.vm.mem
  freeApart : FreeApart {frameOf s.kernel.cur.pml4Phys} s.kernel.vm
  held : s.held = []
  peak : s.peak = s.kernel.cur.brkBase.toNat
  aligned : s.kernel.cur.brkBase.toNat % 4096 = 0
  empty : s.kernel.cur.brkCur = s.kernel.cur.brkBase
  unmapped : ∀ va : Word, s.kernel.cur.brkBase.toNat ≤ va.toNat → va.toNat < brkLimit.toNat →
    pageAt s.kernel.vm s.kernel.cur.pml4Phys va = none

/-- The heap of the task is in order. -/
def InOrder (s : BrkSystem) : Prop := HeapInOrder s.kernel.cur s.kernel.vm s.held s.peak

end BrkSystem

section Steps

variable {t : Task} {vm vm' : Vm} {held : List Nat} {peak peak' : Nat} {D : Set (List Idx)}

/-- Pages outside of the address space stay outside when fresh pages are mapped. -/
theorem unreached_mapped {r f : Nat} (hm : Mapped vm r D vm') (hf : ¬ vm.pmm.Free f)
    (hun : Unreached {r} vm f) : Unreached {r} vm' f := by
  intro r' p hreach
  obtain rfl : r' = r := hreach.mem_roots
  rcases hreach.table_or_leaf with htable | hleaf
  · rcases hm.newTable htable with hold | hfree
    · exact hun _ p (hold.weaken (by decide))
    · exact hf hfree
  · by_cases hp : p ∈ D
    · obtain ⟨g, hg, hfree, -⟩ := hm.page p hp
      obtain rfl : g = f := Option.some.inj (hg.at_path.symm.trans hleaf.at_path)
      exact hf hfree
    · exact hun _ p ((hm.old hp).mp hleaf).reach

/-- A growth for which there was room leaves the heap in order. -/
theorem HeapInOrder.grow {k : Kernel} {addr : Word} (h : HeapInOrder k.cur k.vm held peak)
    (hacc : ¬ BrkRefused k.cur addr)
    (hle : (pageUp k.cur.brkCur).toNat ≤ (pageUp addr).toNat)
    (hm : Mapped k.vm (frameOf k.cur.pml4Phys)
      (rangePaths (pageUp k.cur.brkCur) (brkGrowth k.cur addr)) (sysBrk k addr).vm) :
    HeapInOrder { k.cur with brkCur := addr } (sysBrk k addr).vm held
      (max peak (pageUp addr).toNat) := by
  have htops := h.tops hacc
  have hval : brkLimit.toNat = 0x40000000 := rfl
  obtain ⟨-, hrest⟩ := not_or.mp hacc
  obtain ⟨hlow, hhigh⟩ := not_or.mp hrest
  constructor
  · exact hm.separated
  · exact hm.freeApart
  · intro f hf
    obtain ⟨hused, hun⟩ := h.apart f hf
    exact ⟨fun hc => hused (hm.free f hc), unreached_mapped hm hused hun⟩
  · exact h.nodup
  · exact le_max_right _ _
  · exact h.aligned
  · exact Nat.le_of_not_lt hlow
  · exact Or.inr (Nat.lt_of_not_le hhigh)
  · exact (h.granted hacc hle hm).mapped
  · intro va hva hlimit
    have hnew : (pageUp addr).toNat ≤ va.toNat := hva
    change pageAt _ k.cur.pml4Phys va = none
    rw [hm.pageAt_eq (userVa_of_lt (by omega))]
    · exact h.unmapped va (hle.trans hnew) hlimit
    · rw [htops.mem_growth hacc hle (by omega)]
      omega

/-- Others take a page. -/
theorem HeapInOrder.take (h : HeapInOrder t vm held peak) {f : Nat}
    (halloc : allocFrame vm = (some f, vm')) : HeapInOrder t vm' (f :: held) peak := by
  obtain ⟨hfree, htotal, hbits, hvm⟩ := allocFrame_some halloc
  have hmem : vm'.mem = vm.mem := by rw [hvm]
  have hstill {g : Nat} (hg : vm'.pmm.Free g) : vm.pmm.Free g ∧ g ≠ f := by
    obtain ⟨hlt, hbit⟩ := hg
    rw [hbits] at hbit
    have hne : g ≠ f := by
      rintro rfl
      rw [Function.update_self] at hbit
      cases hbit
    rw [Function.update_of_ne hne] at hbit
    exact ⟨⟨htotal ▸ hlt, hbit⟩, hne⟩
  refine { h with
    separated := hmem ▸ h.separated
    freeApart := ⟨htotal ▸ h.freeApart.total_le, fun g hg => ?_⟩
    apart := fun g hg => ?_
    nodup := ?_
    mapped := fun va hlow hhigh => ?_
    unmapped := fun va hlow hhigh => ?_ }
  · rw [hmem]
    exact h.freeApart.apart g (hstill hg).1
  · unfold Unreached
    rw [hmem]
    rcases List.mem_cons.mp hg with rfl | hold
    · exact ⟨fun hc => (hstill hc).2 rfl, h.freeApart.apart g hfree⟩
    · obtain ⟨hused, hun⟩ := h.apart g hold
      exact ⟨fun hc => hused (hstill hc).1, hun⟩
  · exact List.nodup_cons.mpr ⟨fun hmem => (h.apart f hmem).1 hfree, h.nodup⟩
  · rw [pageAt, hmem]
    exact h.mapped va hlow hhigh
  · rw [pageAt, hmem]
    exact h.unmapped va hlow hhigh

/-- Others give a page back that they hold. -/
theorem HeapInOrder.give (h : HeapInOrder t vm held peak) {f : Nat} (hf : f ∈ held) :
    HeapInOrder t (freeFrame vm f) (held.erase f) peak := by
  have hcases {g : Nat} (hg : (freeFrame vm f).pmm.Free g) : vm.pmm.Free g ∨ g = f := by
    obtain ⟨hlt, hbit⟩ := hg
    have htotal : (freeFrame vm f).pmm.totalPages = vm.pmm.totalPages :=
      (pmmFree_frame f 1 vm.pmm).1
    have hbits : (freeFrame vm f).pmm.bitmap = Function.update vm.pmm.bitmap f false :=
      pmmFree_one f vm.pmm
    by_cases hne : g = f
    · exact Or.inr hne
    · rw [hbits, Function.update_of_ne hne] at hbit
      exact Or.inl ⟨htotal ▸ hlt, hbit⟩
  refine { h with
    freeApart := ⟨?_, fun g hg => ?_⟩
    apart := fun g hg => ?_
    nodup := h.nodup.erase f }
  · exact (pmmFree_frame f 1 vm.pmm).1.le.trans h.freeApart.total_le
  · rcases hcases hg with hold | rfl
    · exact h.freeApart.apart g hold
    · exact (h.apart g hf).2
  · obtain ⟨hne, hold⟩ := h.nodup.mem_erase_iff.mp hg
    obtain ⟨hused, hun⟩ := h.apart g hold
    exact ⟨fun hc => (hcases hc).elim hused hne, hun⟩

end Steps

namespace BrkSystem

variable {s s' : BrkSystem}

theorem Start.inOrder (h : Start s) : InOrder s := by
  have hround : (pageUp s.kernel.cur.brkCur).toNat = s.kernel.cur.brkBase.toNat := by
    have hlt := s.kernel.cur.brkBase.isLt
    have halign := h.aligned
    rw [h.empty, toNat_pageUp_of_le (by omega)]
    omega
  constructor
  · exact h.separated
  · exact h.freeApart
  · rw [h.held]
    exact fun f hf => absurd hf List.not_mem_nil
  · rw [h.held]
    exact List.nodup_nil
  · rw [h.peak, hround]
  · exact h.aligned
  · rw [h.empty]
  · exact Or.inl h.empty
  · intro va hlow hhigh
    rw [hround] at hhigh
    exact absurd hhigh (Nat.not_lt.mpr hlow)
  · rw [hround]
    exact h.unmapped

/-- In order, an event keeps the contract exactly if it is one of the calls that do. -/
theorem InOrder.keeps_iff (h : InOrder s) (e : BrkEvent) : Keeps s e ↔ Serves s e := by
  cases e with
  | brk addr => exact HeapInOrder.contract_iff h
  | take => exact Iff.rfl
  | give f => exact Iff.rfl

/-- An event that keeps the contract leaves the heap in order. -/
theorem InOrder.step {e : BrkEvent} (h : InOrder s) (hkeeps : Keeps s e)
    (he : step s e = some s') : InOrder s' := by
  cases e with
  | brk addr =>
    cases he
    by_cases hacc : BrkRefused s.kernel.cur addr
    · obtain ⟨hcur, hvm⟩ := sysBrk_refused hacc
      unfold InOrder
      dsimp only
      rw [hcur, hvm]
      exact { h with peak := le_max_right _ _ }
    · obtain ⟨hle, hroom⟩ := ((h.keeps_iff (.brk addr)).mp hkeeps).resolve_left hacc
      have hm := (HeapInOrder.grow_iff h hacc hle).2.mpr hroom
      have hgrow := HeapInOrder.grow h hacc hle hm
      unfold InOrder
      dsimp only
      rw [sysBrk_cur hacc]
      exact { hgrow with }
  | take =>
    rw [BrkSystem.step] at he
    cases halloc : allocFrame s.kernel.vm with
    | mk page vm =>
      rw [halloc] at he
      cases page with
      | none => cases he
      | some f =>
        cases he
        exact HeapInOrder.take h halloc
  | give f =>
    obtain ⟨hf, heq⟩ := Option.ite_none_right_eq_some.mp he
    cases heq
    exact HeapInOrder.give h hf

/-- All calls of a run keep the contract exactly if all of them are calls that do: none
takes the break down by a page, and there is room for every growth. -/
theorem brk_contract_iff {es : List BrkEvent} (h : InOrder s)
    (hrun : Run.run step s es = some s') :
    Run.Along step Keeps s es ↔ Run.Along step Serves s es :=
  Run.along_congr (fun _ _ _ h hk he => InOrder.step h hk he)
    (fun _ e _ h _ => InOrder.keeps_iff h e) h hrun

/-- A call after which a page is left over is one that keeps the contract. -/
theorem InOrder.serves_of_spare {addr : Word} {f : Nat} (h : InOrder s)
    (hle : (pageUp s.kernel.cur.brkCur).toNat ≤ (pageUp addr).toNat)
    (hspare : (sysBrk s.kernel addr).vm.pmm.Free f) : Serves s (.brk addr) := by
  by_cases hacc : BrkRefused s.kernel.cur addr
  · exact Or.inl hacc
  · have htops := HeapInOrder.tops h hacc
    have hgrow := htops.growth hacc hle
    have hnew := htops.new_le
    rw [sysBrk_grow_vm hle] at hspare
    exact Or.inr ⟨hle, room_of_spare h.separated h.freeApart rfl (by omega) Prod.mk.eta.symm hspare⟩

/-- The first process right after boot. -/
def booted (k : Kernel) : BrkSystem := ⟨k, [], k.cur.brkBase.toNat⟩

/-- Without a second table for the lowest gigabyte nothing is mapped below the limit. -/
theorem pageAt_below_limit {vm : Vm} {pml4 va : Word}
    (h : node child vm.mem (frameOf pml4) [0, 0] = none) (hva : va.toNat < brkLimit.toNat) :
    pageAt vm pml4 va = none := by
  have hval : brkLimit.toNat = 0x40000000 := rfl
  have hidx {level : Nat} (hl : va.toNat / 4096 / 512 ^ level % 512 = 0) : idx va level = 0 :=
    Fin.ext ((idx_val_page va level).trans hl)
  have hpath : pagePath va = [0, 0] ++ [idx va 1, idx va 0] := by
    have hhigh : idx va 3 = 0 := hidx (by omega)
    have hlow : idx va 2 = 0 := hidx (by omega)
    rw [pagePath, tablePath, tablePath, hhigh, hlow]
    rfl
  rw [pageAt, hpath, node_append, h]
  rfl

theorem start_booted {k : Kernel} (hboot : boot smallVm (some smallProgram) none = some k)
    (h0 : k.current ≠ 0) (hbase : k.cur.brkBase = 0x401000) (hcur : k.cur.brkCur = 0x401000)
    (hnone : node child k.vm.mem (frameOf k.cur.pml4Phys) [0, 0] = none) : Start (booted k) := by
  have hhomed := boot_homed ⟨by decide, fun _ _ => rfl⟩ (by decide) (by decide) hboot
  obtain ⟨hsep, hfree⟩ := hhomed.cur_space (boot_started hboot).sane h0
  refine ⟨hsep, hfree, rfl, rfl, ?_, hcur.trans hbase.symm, ?_⟩
  · change k.cur.brkBase.toNat % 4096 = 0
    rw [hbase]
    decide
  · exact fun va _ hlimit => pageAt_below_limit hnone hlimit

/-- The heap grows by two pages while another task takes one, and shrinks within a page. -/
theorem brk_contract_two_pages : ∃ k₀, boot smallVm (some smallProgram) none = some k₀ ∧
    Run.Along step Keeps (booted k₀) [.take, .brk 0x403000, .brk 0x402800] := by
  have hrun : ∃ k₀, boot smallVm (some smallProgram) none = some k₀ ∧ k₀.current ≠ 0 ∧
      k₀.cur.brkBase = 0x401000 ∧ k₀.cur.brkCur = 0x401000 ∧
      node child k₀.vm.mem (frameOf k₀.cur.pml4Phys) [0, 0] = none ∧
      ∃ s₁, step (booted k₀) .take = some s₁ ∧
      (pageUp s₁.kernel.cur.brkCur).toNat ≤ (pageUp 0x403000).toNat ∧
      (sysBrk s₁.kernel 0x403000).vm.pmm.totalPages = 256 ∧
      (sysBrk s₁.kernel 0x403000).vm.pmm.bitmap 200 = false ∧
      ∃ s₂, step s₁ (.brk 0x403000) = some s₂ ∧
      (pageUp s₂.kernel.cur.brkCur).toNat ≤ (pageUp 0x402800).toNat ∧
      (sysBrk s₂.kernel 0x402800).vm.pmm.totalPages = 256 ∧
      (sysBrk s₂.kernel 0x402800).vm.pmm.bitmap 200 = false := by
    decide +kernel
  obtain ⟨k₀, hboot, h0, hbase, hcur, hnone, s₁, h₁, hle₁, htotal₁, hbit₁, s₂, h₂, hle₂, htotal₂,
    hbit₂⟩ := hrun
  have hstart := start_booted hboot h0 hbase hcur hnone
  have hin₁ : InOrder s₁ := hstart.inOrder.step (show Keeps (booted k₀) .take from trivial) h₁
  have hserves₁ : Serves s₁ (.brk 0x403000) :=
    hin₁.serves_of_spare hle₁ ⟨by rw [htotal₁]; decide, hbit₁⟩
  have hin₂ : InOrder s₂ := hin₁.step ((hin₁.keeps_iff _).mpr hserves₁) h₂
  have hserves₂ : Serves s₂ (.brk 0x402800) :=
    hin₂.serves_of_spare hle₂ ⟨by rw [htotal₂]; decide, hbit₂⟩
  have hrun : Run.run step (booted k₀) [.take, .brk 0x403000, .brk 0x402800] =
      step s₂ (.brk 0x402800) := by
    rw [Run.run, h₁, Option.bind_some, Run.run, h₂, Option.bind_some]
    rfl
  refine ⟨k₀, hboot, (brk_contract_iff hstart.inOrder hrun).mpr ⟨trivial, fun s₁' h₁' => ?_⟩⟩
  obtain rfl := Option.some.inj (h₁.symm.trans h₁')
  refine ⟨hserves₁, fun s₂' h₂' => ?_⟩
  obtain rfl := Option.some.inj (h₂.symm.trans h₂')
  exact ⟨hserves₂, fun _ _ => trivial⟩

/-- The heap of the first process grows by a page and shrinks again: the call returns its
argument, and the page is still mapped. -/
theorem brk_shrink_keeps_page : ∃ k₀, boot smallVm (some smallProgram) none = some k₀ ∧
    Start (booted k₀) ∧ ¬ Run.Along step Keeps (booted k₀) [.brk 0x402000, .brk 0x401000] := by
  have hrun : ∃ k₀, boot smallVm (some smallProgram) none = some k₀ ∧ k₀.current ≠ 0 ∧
      k₀.cur.brkBase = 0x401000 ∧ k₀.cur.brkCur = 0x401000 ∧
      node child k₀.vm.mem (frameOf k₀.cur.pml4Phys) [0, 0] = none ∧
      ∃ s, step (booted k₀) (.brk 0x402000) = some s ∧ s.peak = 0x402000 ∧
      (sysBrk s.kernel 0x401000).cur.rax = 0x401000 ∧
      pageAt (sysBrk s.kernel 0x401000).vm s.kernel.cur.pml4Phys 0x401000 ≠ none := by
    decide +kernel
  obtain ⟨k₀, hboot, h0, hbase, hcur, hnone, s, hs, hpeak, hrax, hpage⟩ := hrun
  refine ⟨k₀, hboot, start_booted hboot h0 hbase hcur hnone, fun h => ?_⟩
  have hcontract : BrkContract s.kernel (sysBrk s.kernel 0x401000) s.peak 0x401000 :=
    (h.2 s hs).1
  rw [hpeak] at hcontract
  exact hpage ((hcontract.granted hrax).gone 0x401000 (by decide) (by decide) (by decide))

end BrkSystem

end Mmix.Sys
