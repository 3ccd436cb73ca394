import Mmix.Proc.Room
import Mmix.Proc.Segments
import Mmix.Sys.MemoryCalls

/-!
# The contract of `sys_brk`

A call that returns its argument has to leave exactly the pages below the new break
mapped, and a call that fails must change nothing. From a heap in order, the code keeps
to this exactly if the break does not go down by a page and there is room for every page
and table of a growth.
-/

namespace Mmix.Sys

open Mm Fs Proc Kernel Forest BitVec

/-- The byte that user code reads at an address. -/
def readByte (s : Vm) (pml4 : Word) (a : Nat) : Option UInt8 :=
  (pageAt s pml4 (BitVec.ofNat 64 a)).map fun f => byteAt s (f * pageSize + a % pageSize)

/-- What a call that returns its argument promises; the heap has used pages up to `peak`. -/
structure BrkGranted (k k' : Kernel) (peak : Nat) (addr : Word) : Prop where
  mapped : ∀ va : Word, k.cur.brkBase.toNat ≤ va.toNat → va.toNat < (pageUp addr).toNat →
    (pageAt k'.vm k.cur.pml4Phys va).isSome
  gone : ∀ va : Word, (pageUp addr).toNat ≤ va.toNat → va.toNat < brkLimit.toNat →
    va.toNat < peak → pageAt k'.vm k.cur.pml4Phys va = none
  kept : ∀ a < min k.cur.brkCur.toNat addr.toNat,
    readByte k'.vm k.cur.pml4Phys a = readByte k.vm k.cur.pml4Phys a
  zero : ∀ a, (pageUp k.cur.brkCur).toNat ≤ a → a < (pageUp addr).toNat →
    readByte k'.vm k.cur.pml4Phys a = some 0
  cur : k'.cur.brkCur = addr

/-- The call returns the old break and changes nothing. -/
structure BrkUnchanged (k k' : Kernel) : Prop where
  rax : k'.cur.rax = k.cur.brkCur.toInt
  vm : k'.vm = k.vm
  cur : k'.cur.brkCur = k.cur.brkCur

/-- What a call of `sys_brk` promises. -/
structure BrkContract (k k' : Kernel) (peak : Nat) (addr : Word) : Prop where
  granted : k'.cur.rax = addr.toInt → BrkGranted k k' peak addr
  refused : k'.cur.rax ≠ addr.toInt → BrkUnchanged k k'

/-- The calls that keep the contract. -/
def BrkServes (k : Kernel) (addr : Word) : Prop :=
  BrkRefused k.cur addr ∨
  (pageUp k.cur.brkCur).toNat ≤ (pageUp addr).toNat ∧
    (newPaths k.vm (frameOf k.cur.pml4Phys)
      (rangePaths (pageUp k.cur.brkCur) (brkGrowth k.cur addr))).ncard ≤ k.vm.pmm.freeSet.card

/-- The heap of a task is mapped up to the break, and nothing above it; others hold some
pages outside of the address space. -/
structure HeapInOrder (t : Task) (vm : Vm) (held : List Nat) (peak : Nat) : Prop where
  separated : Separated userFormat {frameOf t.pml4Phys} vm.mem
  freeApart : FreeApart {frameOf t.pml4Phys} vm
  apart : ∀ f ∈ held, ¬ vm.pmm.Free f ∧ Unreached {frameOf t.pml4Phys} vm f
  nodup : held.Nodup
  peak : (pageUp t.brkCur).toNat ≤ peak
  aligned : t.brkBase.toNat % 4096 = 0
  base_le : t.brkBase.toNat ≤ t.brkCur.toNat
  limit : t.brkCur = t.brkBase ∨ t.brkCur.toNat < brkLimit.toNat
  mapped : ∀ va : Word, t.brkBase.toNat ≤ va.toNat → va.toNat < (pageUp t.brkCur).toNat →
    (pageAt vm t.pml4Phys va).isSome
  unmapped : ∀ va : Word, (pageUp t.brkCur).toNat ≤ va.toNat → va.toNat < brkLimit.toNat →
    pageAt vm t.pml4Phys va = none

section Bytes

variable {s s₀ : Vm} {pml4 : Word} {D : Set (List Idx)} {a : Nat}

/-- A byte comes from the row of its frame. -/
theorem readByte_of_row {f : Nat} {row : Idx → Word}
    (hp : pageAt s pml4 (BitVec.ofNat 64 a) = some f) (hrow : s.mem f = row) :
    readByte s pml4 a = some (getByte (row ⟨a % pageSize / 8, word_lt a⟩)
      (a % 8)) := by
  have hframe : (f * pageSize + a % pageSize) / pageSize = f := by
    unfold pageSize
    omega
  have hofs : (f * pageSize + a % pageSize) % pageSize = a % pageSize := by
    unfold pageSize
    omega
  have hbyte : (f * pageSize + a % pageSize) % 8 = a % 8 := by
    unfold pageSize
    omega
  rw [readByte, hp, Option.map_some, byteAt, hframe, hrow, hbyte]
  simp only [hofs]

theorem userVa_ofNat (ha : a < 2 ^ 47) : UserVa (BitVec.ofNat 64 a) :=
  userVa_of_lt (by rw [BitVec.toNat_ofNat]; omega)

/-- Bytes outside of the fresh pages stay. -/
theorem readByte_mapped_eq (h : Mapped s₀ (frameOf pml4) D s)
    (hsep : Separated userFormat {frameOf pml4} s₀.mem) (hfree : FreeApart {frameOf pml4} s₀)
    (ha : a < 2 ^ 47) (hD : pagePath (BitVec.ofNat 64 a) ∉ D) :
    readByte s pml4 a = readByte s₀ pml4 a := by
  have hpage := h.pageAt_eq (userVa_ofNat ha) hD
  cases hp : pageAt s₀ pml4 (BitVec.ofNat 64 a) with
  | none =>
    rw [hp] at hpage
    rw [readByte, readByte, hpage, hp]
    rfl
  | some f =>
    have hleaf := (leaf_iff_pageAt (userVa_ofNat ha)).mpr hp
    have hrow : s.mem f = s₀.mem f := h.kept f (fun hc => hfree.apart f hc _ _ hleaf.reach)
      fun p ht => hsep.leaf_ne_table ht hleaf
    rw [readByte_of_row (hpage.trans hp) hrow, readByte_of_row hp rfl]

/-- Fresh pages read as zero. -/
theorem readByte_mapped_fresh (h : Mapped s₀ (frameOf pml4) D s) (ha : a < 2 ^ 47)
    (hD : pagePath (BitVec.ofNat 64 a) ∈ D) : readByte s pml4 a = some 0 := by
  obtain ⟨f, hleaf, -, hrow⟩ := h.page _ hD
  rw [readByte_of_row ((leaf_iff_pageAt (userVa_ofNat ha)).mp hleaf) hrow, getByte_zero]

end Bytes

section Outcome

variable {k : Kernel} {addr : Word}

/-- The current task and the memory after a call that was refused. -/
theorem sysBrk_refused (h : BrkRefused k.cur addr) :
    (sysBrk k addr).cur = { k.cur with cont := .user, rax := k.cur.brkCur.toInt } ∧
      (sysBrk k addr).vm = k.vm := by
  have h' : addr = 0 ∨ addr < k.cur.brkBase ∨ brkLimit ≤ addr := h
  rw [sysBrk, if_pos h']
  exact ⟨finish_cur k _, rfl⟩

/-- The current task after a call that was not refused. -/
theorem sysBrk_cur (h : ¬ BrkRefused k.cur addr) : (sysBrk k addr).cur =
    { k.cur with brkCur := addr, cont := .user, rax := addr.toInt } := by
  have h' : ¬ (addr = 0 ∨ addr < k.cur.brkBase ∨ brkLimit ≤ addr) := h
  rw [sysBrk, if_neg h']
  dsimp only
  rw [finish_cur, modCur_cur]
  rfl

theorem brkShrink_mem (pml4 : Word) (pages : Nat) (va : Word) (s : Vm) :
    (brkShrink pml4 pages va s).mem = s.mem := by
  induction pages generalizing va s with
  | zero => rfl
  | succ pages ih =>
    rw [brkShrink, ih]
    split
    · rfl
    · exact destroyLeaf_mem s _

/-- A shrinking call leaves the tables as they are. -/
theorem sysBrk_shrink_mem (h : (pageUp addr).toNat < (pageUp k.cur.brkCur).toNat) :
    (sysBrk k addr).vm.mem = k.vm.mem := by
  have hgrow : brkGrowth k.cur addr = 0 := by
    unfold brkGrowth
    split
    · rfl
    · exact pageCount_of_le fun hlt => absurd (lt_def.mp hlt) (by omega)
  rw [(sysBrk_memory k addr).1, brkShrink_mem, hgrow]
  rfl

/-- A growing call maps fresh pages. -/
theorem sysBrk_grow_vm (h : (pageUp k.cur.brkCur).toNat ≤ (pageUp addr).toNat) :
    (sysBrk k addr).vm =
      (mapFresh k.cur.pml4Phys (brkGrowth k.cur addr) (pageUp k.cur.brkCur) k.vm).2 := by
  have hloss : brkLoss k.cur addr = 0 := by
    unfold brkLoss
    split
    · rfl
    · exact pageCount_of_le fun hlt => absurd (lt_def.mp hlt) (by omega)
  rw [(sysBrk_memory k addr).1, hloss]
  rfl

end Outcome

section Ranges

/-- Rounding an address below the limit does not wrap. -/
theorem toNat_pageUp_of_le {w : Word} (h : w.toNat ≤ 2 ^ 64 - 4096) :
    (pageUp w).toNat = (w.toNat + 4095) / 4096 * 4096 := by
  rw [toNat_pageUp, Nat.mod_eq_of_lt (by omega)]

/-- The pages between two page boundaries. -/
theorem pageCount_between {va stop : Word} (hva : va.toNat % 4096 = 0)
    (hstop : stop.toNat % 4096 = 0) (hle : va.toNat ≤ stop.toNat) :
    va.toNat + pageCount va stop * 4096 = stop.toNat := by
  by_cases hlt : va < stop
  · have hsub : (stop - va).toNat = stop.toNat - va.toNat := toNat_sub_of_le hle
    rw [pageCount, if_pos hlt, hsub]
    unfold pageSize
    omega
  · have : ¬ va.toNat < stop.toNat := fun hc => hlt (lt_def.mpr hc)
    rw [pageCount_of_le hlt]
    omega

end Ranges

section Call

variable {k : Kernel} {held : List Nat} {peak : Nat} {addr : Word}

/-- The two rounded breaks of a call that is not refused. -/
structure BrkTops (t : Task) (addr : Word) : Prop where
  base_le : t.brkBase.toNat ≤ (pageUp addr).toNat
  old_ge : t.brkCur.toNat ≤ (pageUp t.brkCur).toNat
  new_ge : addr.toNat ≤ (pageUp addr).toNat
  old_le : (pageUp t.brkCur).toNat ≤ 0x40000000
  new_le : (pageUp addr).toNat ≤ 0x40000000
  old_aligned : (pageUp t.brkCur).toNat % 4096 = 0
  new_aligned : (pageUp addr).toNat % 4096 = 0

theorem HeapInOrder.tops {vm : Vm} {t : Task} (h : HeapInOrder t vm held peak)
    (hacc : ¬ BrkRefused t addr) : BrkTops t addr := by
  have hval : brkLimit.toNat = 0x40000000 := rfl
  obtain ⟨-, hrest⟩ := not_or.mp hacc
  obtain ⟨hlow, hhigh⟩ := not_or.mp hrest
  rw [lt_def] at hlow
  rw [le_def] at hhigh
  have hcur : t.brkCur.toNat < 0x40000000 := by
    rcases h.limit with heq | hlt
    · rw [heq]
      omega
    · omega
  have hold := toNat_pageUp_of_le (show t.brkCur.toNat ≤ 2 ^ 64 - 4096 by omega)
  have hnew := toNat_pageUp_of_le (show addr.toNat ≤ 2 ^ 64 - 4096 by omega)
  constructor <;> omega

/-- The pages of a growth reach from the old rounded break to the new one. -/
theorem BrkTops.growth (h : BrkTops k.cur addr) (hacc : ¬ BrkRefused k.cur addr)
    (hle : (pageUp k.cur.brkCur).toNat ≤ (pageUp addr).toNat) :
    (pageUp k.cur.brkCur).toNat + brkGrowth k.cur addr * 4096 = (pageUp addr).toNat := by
  rw [brkGrowth, if_neg hacc]
  exact pageCount_between h.old_aligned h.new_aligned hle

/-- The addresses of the new pages. -/
theorem BrkTops.mem_growth (h : BrkTops k.cur addr) (hacc : ¬ BrkRefused k.cur addr)
    (hle : (pageUp k.cur.brkCur).toNat ≤ (pageUp addr).toNat) {va : Word}
    (hva : va.toNat < 2 ^ 47) :
    pagePath va ∈ rangePaths (pageUp k.cur.brkCur) (brkGrowth k.cur addr) ↔
      (pageUp k.cur.brkCur).toNat ≤ va.toNat ∧ va.toNat < (pageUp addr).toNat := by
  have hgrow := h.growth hacc hle
  have hnew := h.new_le
  rw [mem_range_iff h.old_aligned (by omega) hva, hgrow]

/-- Fresh pages for the whole growth are what the call promises. -/
theorem HeapInOrder.granted (h : HeapInOrder k.cur k.vm held peak) (hacc : ¬ BrkRefused k.cur addr)
    (hle : (pageUp k.cur.brkCur).toNat ≤ (pageUp addr).toNat)
    (hm : Mapped k.vm (frameOf k.cur.pml4Phys)
      (rangePaths (pageUp k.cur.brkCur) (brkGrowth k.cur addr)) (sysBrk k addr).vm) :
    BrkGranted k (sysBrk k addr) peak addr := by
  have htops := h.tops hacc
  have hval : brkLimit.toNat = 0x40000000 := rfl
  have hnew := htops.new_le
  have hbyte {a : Nat} (ha : a < 0x40000000) : (BitVec.ofNat 64 a).toNat = a := by
    rw [BitVec.toNat_ofNat]
    omega
  constructor
  · intro va hlow hhigh
    have huser : UserVa va := userVa_of_lt (by omega)
    by_cases hold : va.toNat < (pageUp k.cur.brkCur).toNat
    · rw [hm.pageAt_eq huser]
      · exact h.mapped va hlow hold
      · rw [htops.mem_growth hacc hle (by omega)]
        omega
    · obtain ⟨f, hleaf, -⟩ := hm.page _ ((htops.mem_growth hacc hle (by omega)).mpr ⟨by omega, hhigh⟩)
      exact Option.isSome_of_eq_some ((leaf_iff_pageAt huser).mp hleaf)
  · intro va hlow hlimit _
    rw [hm.pageAt_eq (userVa_of_lt (by omega))]
    · exact h.unmapped va (by omega) hlimit
    · rw [htops.mem_growth hacc hle (by omega)]
      omega
  · intro a ha
    obtain ⟨hcur, hnewBreak⟩ := lt_min_iff.mp ha
    have hold := htops.old_ge
    have hup := htops.new_ge
    apply readByte_mapped_eq hm h.separated h.freeApart (by omega)
    rw [htops.mem_growth hacc hle (by rw [hbyte (by omega)]; omega), hbyte (by omega)]
    omega
  · intro a hlow hhigh
    apply readByte_mapped_fresh hm (by omega)
    rw [htops.mem_growth hacc hle (by rw [hbyte (by omega)]; omega), hbyte (by omega)]
    exact ⟨hlow, hhigh⟩
  · rw [sysBrk_cur hacc]

/-- A growth keeps its promise exactly where there is room for it. -/
theorem HeapInOrder.grow_iff (h : HeapInOrder k.cur k.vm held peak)
    (hacc : ¬ BrkRefused k.cur addr)
    (hle : (pageUp k.cur.brkCur).toNat ≤ (pageUp addr).toNat) :
    (BrkGranted k (sysBrk k addr) peak addr ↔ Mapped k.vm (frameOf k.cur.pml4Phys)
      (rangePaths (pageUp k.cur.brkCur) (brkGrowth k.cur addr)) (sysBrk k addr).vm) ∧
    (Mapped k.vm (frameOf k.cur.pml4Phys)
      (rangePaths (pageUp k.cur.brkCur) (brkGrowth k.cur addr)) (sysBrk k addr).vm ↔
      (newPaths k.vm (frameOf k.cur.pml4Phys)
        (rangePaths (pageUp k.cur.brkCur) (brkGrowth k.cur addr))).ncard ≤
          k.vm.pmm.freeSet.card) := by
  have htops := h.tops hacc
  have hgrow := htops.growth hacc hle
  have hval : brkLimit.toNat = 0x40000000 := rfl
  have hnew := htops.new_le
  have hbase := htops.base_le
  have hbound : (pageUp k.cur.brkCur).toNat + brkGrowth k.cur addr * 4096 ≤ 2 ^ 47 := by omega
  have hnone := forall_rangePaths
    (P := fun p => node child k.vm.mem (frameOf k.cur.pml4Phys) p = none) hbound
    fun va hlow hhigh => h.unmapped va hlow (by omega)
  cases hrun : mapFresh k.cur.pml4Phys (brkGrowth k.cur addr) (pageUp k.cur.brkCur) k.vm with
  | mk ok vm =>
    have hvm : (sysBrk k addr).vm = vm := by rw [sysBrk_grow_vm hle, hrun]
    have hroom := mapFresh_iff_room h.separated h.freeApart rfl hbound hnone hrun
    constructor
    · refine ⟨fun hg => ?_, h.granted hacc hle⟩
      rw [hvm]
      refine mapped_of_shown h.separated h.freeApart rfl hbound hnone
        (forall_rangePaths hbound fun va hlow hhigh => ?_) hrun
      rw [← hvm]
      have hold := htops.old_ge
      have hbaseCur := h.base_le
      exact hg.mapped va (by omega) (by omega)
    · rw [hvm]
      exact ⟨newPaths_le_of_mapped (userPages_range hbound), fun hr => (hroom.mpr hr).2⟩

/-- A shrinking call leaves the pages above the new break mapped. -/
theorem HeapInOrder.not_granted (h : HeapInOrder k.cur k.vm held peak)
    (hacc : ¬ BrkRefused k.cur addr)
    (hlt : (pageUp addr).toNat < (pageUp k.cur.brkCur).toNat) :
    ¬ BrkGranted k (sysBrk k addr) peak addr := by
  intro hg
  have htops := h.tops hacc
  have hval : brkLimit.toNat = 0x40000000 := rfl
  have hold := htops.old_le
  have hpage := h.mapped (pageUp addr) htops.base_le hlt
  have hgone := hg.gone (pageUp addr) le_rfl (by omega) (hlt.trans_le h.peak)
  rw [pageAt, sysBrk_shrink_mem hlt] at hgone
  rw [pageAt, hgone] at hpage
  cases hpage

/-- A refused call keeps the contract. -/
theorem HeapInOrder.refused (h : HeapInOrder k.cur k.vm held peak) (href : BrkRefused k.cur addr) :
    BrkContract k (sysBrk k addr) peak addr := by
  obtain ⟨hcur, hvm⟩ := sysBrk_refused href
  constructor
  · intro hrax
    rw [hcur] at hrax
    obtain rfl : k.cur.brkCur = addr := toInt_inj.mp hrax
    constructor
    · rw [hvm]
      exact h.mapped
    · rw [hvm]
      exact fun va hlow hlimit _ => h.unmapped va hlow hlimit
    · rw [hvm]
      exact fun _ _ => rfl
    · exact fun a hlow hhigh => absurd hhigh (Nat.not_lt.mpr hlow)
    · rw [hcur]
  · exact fun _ => ⟨by rw [hcur], hvm, by rw [hcur]⟩

/-- A call keeps its contract exactly in the cases of `BrkServes`. -/
theorem HeapInOrder.contract_iff (h : HeapInOrder k.cur k.vm held peak) :
    BrkContract k (sysBrk k addr) peak addr ↔ BrkServes k addr := by
  by_cases hacc : BrkRefused k.cur addr
  · exact iff_of_true (h.refused hacc) (Or.inl hacc)
  have hrax : (sysBrk k addr).cur.rax = addr.toInt := by rw [sysBrk_cur hacc]
  have hcontract : BrkContract k (sysBrk k addr) peak addr ↔
      BrkGranted k (sysBrk k addr) peak addr :=
    ⟨fun hc => hc.granted hrax, fun hg => ⟨fun _ => hg, fun hne => absurd hrax hne⟩⟩
  rw [hcontract]
  by_cases hle : (pageUp k.cur.brkCur).toNat ≤ (pageUp addr).toNat
  · obtain ⟨hgranted, hroom⟩ := h.grow_iff hacc hle
    rw [hgranted, hroom]
    exact ⟨fun hr => Or.inr ⟨hle, hr⟩, fun hs => (hs.resolve_left hacc).2⟩
  · refine iff_of_false (h.not_granted hacc (Nat.lt_of_not_le hle)) fun hs => ?_
    exact hle (hs.resolve_left hacc).1

end Call

end Mmix.Sys
