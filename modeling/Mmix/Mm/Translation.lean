import Mmix.Mm.Mapping

/-!
# Page tables as a finite map

The translation computed by `pmap_resolve` changes under `pmap_map` and
`pmap_unmap` as a map from pages to frames changes at one point.
-/

namespace Mmix.Mm

open Forest

/-- A well-formed user half: every table is referenced by one entry, the
top-level table by none, and no mapped frame is a table. -/
def WellFormed (s : Vm) (pml4Phys : Word) : Prop :=
  Separated userFormat {frameOf pml4Phys} s.mem

/-- The pages the allocator may return are not in the tree. -/
def AllocApart (s : Vm) (pml4Phys : Word) : Prop :=
  FreeApart {frameOf pml4Phys} s

/-- A frame used as a table of the user half. -/
def IsTable (s : Vm) (pml4Phys : Word) (f : Nat) : Prop :=
  ∃ p, Table userFormat {frameOf pml4Phys} s.mem (frameOf pml4Phys) p f

/-- The walk of an address meets, below the top-level table, neither a table of
the user half nor a page the allocator may return. User addresses never
need this; the upper half is not part of the tree. -/
def WalkApart (s : Vm) (pml4Phys va : Word) : Prop :=
  ∀ p f, p ≠ [] → p <+: tablePath va 3 → node child s.mem (frameOf pml4Phys) p = some f →
    ¬ s.pmm.Free f ∧ ¬ IsTable s pml4Phys f

section Resolve

variable {s : Vm} {pml4Phys va pa flags : Word}

theorem pmapResolve_congr {s' : Vm}
    (h : node child s'.mem (frameOf pml4Phys) (pagePath va) =
      node child s.mem (frameOf pml4Phys) (pagePath va)) :
    pmapResolve s' pml4Phys va = pmapResolve s pml4Phys va := by
  rw [pmapResolve_eq, pmapResolve_eq, h]

/-- Extended tables translate every user address as before. -/
theorem pmapResolve_extends_user {s' : Vm} (h : Extends {frameOf pml4Phys} s s')
    (hva : UserVa va) : pmapResolve s' pml4Phys va = pmapResolve s pml4Phys va :=
  pmapResolve_congr (h.pages _ rfl _ (admissible_pagePath hva) (pagePath_length va))

/-- Extended tables translate a kernel address as before when its walk stays
away from the pages that were written. -/
theorem pmapResolve_extends_upper {s' : Vm} (h : Extends {frameOf pml4Phys} s s')
    (hva : ¬ UserVa va) (hwalk : WalkApart s pml4Phys va) :
    pmapResolve s' pml4Phys va = pmapResolve s pml4Phys va := by
  apply pmapResolve_congr
  apply node_eq_of_words
  intro p i f hp hn
  cases p with
  | nil =>
    cases hn
    have hi : i = idx va 3 := by
      simpa [pagePath, tablePath] using hp
    exact h.upper _ rfl i (by rw [hi]; exact Nat.le_of_not_lt hva)
  | cons j p =>
    have hpre : j :: p <+: tablePath va 3 := by
      have hp' : j :: p <+: tablePath va 3 ++ [idx va 0] :=
        (List.prefix_append (j :: p) [i]).trans hp
      refine List.prefix_of_prefix_length_le hp' (List.prefix_append _ _) ?_
      have := hp.length_le
      simp only [pagePath, List.length_append, List.length_singleton] at this
      omega
    obtain ⟨hfree, hnot⟩ := hwalk _ f (by simp) hpre hn
    rw [h.foreign f hfree]
    intro r q hq
    obtain rfl := hq.mem_roots
    exact hnot ⟨q, hq⟩

theorem pmapResolve_pmapMap (hwf : WellFormed s pml4Phys) (hfree : AllocApart s pml4Phys)
    (hva : va.toNat < 2 ^ 47) (hflags : flags &&& pteAddrMask = 0)
    (hsome : (mapWalk s pml4Phys va flags).1.isSome) {va' : Word} (hva' : va'.toNat < 2 ^ 47) :
    pmapResolve (pmapMap s pml4Phys va pa flags) pml4Phys va' =
      if va'.toNat / 4096 = va.toNat / 4096 then (pa &&& pteAddrMask) ||| (va' &&& 0xFFF)
      else pmapResolve s pml4Phys va' := by
  obtain ⟨t, ht⟩ := Option.isSome_iff_exists.mp hsome
  have hext := (mapWalk_spec hflags hwf hfree rfl (userVa_of_lt hva)).1
  have hnode := node_pmapMap pa hflags hwf hfree rfl (userVa_of_lt hva) ht rfl
    (admissible_pagePath (userVa_of_lt hva')) (pagePath_length va').le
  have hpage : pagePath va' = pagePath va ↔ va'.toNat / 4096 = va.toNat / 4096 :=
    pagePath_eq_iff (hva'.trans (by norm_num)) (hva.trans (by norm_num))
  by_cases hc : va'.toNat / 4096 = va.toNat / 4096
  · rw [if_pos ⟨rfl, hpage.mpr hc⟩] at hnode
    rw [if_pos hc, pmapResolve_eq, hnode, and_pteAddrMask_eq]
  · rw [if_neg fun h => hc (hpage.mp h.2)] at hnode
    rw [if_neg hc, ← pmapResolve_extends_user hext (userVa_of_lt hva')]
    exact pmapResolve_congr hnode

theorem pmapResolve_pmapUnmap (hwf : WellFormed s pml4Phys) (hva : va.toNat < 2 ^ 47)
    {va' : Word} (hva' : va'.toNat < 2 ^ 47) :
    pmapResolve (pmapUnmap s pml4Phys va) pml4Phys va' =
      if va'.toNat / 4096 = va.toNat / 4096 then 0 else pmapResolve s pml4Phys va' := by
  have hnode := node_pmapUnmap hwf rfl (userVa_of_lt hva) rfl
    (admissible_pagePath (userVa_of_lt hva')) (pagePath_length va').le
  have hpage : pagePath va' = pagePath va ↔ va'.toNat / 4096 = va.toNat / 4096 :=
    pagePath_eq_iff (hva'.trans (by norm_num)) (hva.trans (by norm_num))
  by_cases hc : va'.toNat / 4096 = va.toNat / 4096
  · rw [if_pos ⟨rfl, hpage.mpr hc⟩] at hnode
    rw [if_pos hc, pmapResolve_eq, hnode]
  · rw [if_neg fun h => hc (hpage.mp h.2)] at hnode
    rw [if_neg hc]
    exact pmapResolve_congr hnode

/-- The page tables behave as a map from user pages to frames. A successful
`pmap_map` sets one page and `pmap_unmap` clears one; a `pmap_map` that runs
out of tables changes no translation. The tree stays well formed, where a
successful `pmap_map` needs that the mapped frame is not itself a table. -/
theorem pmap_refines_page_map (hwf : WellFormed s pml4Phys) (hfree : AllocApart s pml4Phys)
    (hva : va.toNat < 2 ^ 47) (hflags : flags &&& pteAddrMask = 0) :
    ((mapWalk s pml4Phys va flags).1.isSome →
      (∀ va', va'.toNat < 2 ^ 47 → pmapResolve (pmapMap s pml4Phys va pa flags) pml4Phys va' =
        if va'.toNat / 4096 = va.toNat / 4096 then (pa &&& pteAddrMask) ||| (va' &&& 0xFFF)
        else pmapResolve s pml4Phys va') ∧
      (WellFormed (pmapMap s pml4Phys va pa flags) pml4Phys ↔
        ¬ IsTable (pmapMap s pml4Phys va pa flags) pml4Phys (target pa))) ∧
    ((mapWalk s pml4Phys va flags).1 = none →
      (∀ va', UserVa va' ∨ WalkApart s pml4Phys va' →
        pmapResolve (pmapMap s pml4Phys va pa flags) pml4Phys va' =
          pmapResolve s pml4Phys va') ∧
      WellFormed (pmapMap s pml4Phys va pa flags) pml4Phys) ∧
    (∀ va', va'.toNat < 2 ^ 47 → pmapResolve (pmapUnmap s pml4Phys va) pml4Phys va' =
      if va'.toNat / 4096 = va.toNat / 4096 then 0 else pmapResolve s pml4Phys va') ∧
    WellFormed (pmapUnmap s pml4Phys va) pml4Phys := by
  have huser := userVa_of_lt hva
  refine ⟨fun hsome => ⟨fun va' hva' => ?_, ?_⟩, fun hnone => ?_, fun va' hva' => ?_, ?_⟩
  · exact pmapResolve_pmapMap hwf hfree hva hflags hsome hva'
  · obtain ⟨t, ht⟩ := Option.isSome_iff_exists.mp hsome
    unfold WellFormed
    rw [separated_pmapMap_iff pa hflags hwf hfree rfl huser ht]
    constructor
    · rintro h ⟨p, hp⟩
      exact h _ p hp
    · intro h r p hp
      obtain rfl := hp.mem_roots
      exact h ⟨p, hp⟩
  · have hext := (mapWalk_spec hflags hwf hfree rfl huser).1
    rw [pmapMap_of_none hnone]
    refine ⟨fun va' hva' => ?_, hext.separated⟩
    by_cases hu : UserVa va'
    · exact pmapResolve_extends_user hext hu
    · exact pmapResolve_extends_upper hext hu (hva'.resolve_left hu)
  · exact pmapResolve_pmapUnmap hwf hva hva'
  · exact separated_pmapUnmap hwf rfl huser

end Resolve

section Example

/-- An empty address space: the top-level table is frame 1, frames 2 to 7 are
free. -/
def emptySpace : Vm where
  pmm := { bitmap := fun page => decide (page < 2), totalPages := 8, freePages := 6 }
  mem := fun _ _ => 0
  refs := fun _ => 0
  refsPages := 8
  cr3 := 0x1000
  kernelPml4 := 0x1000
  usable := fun page => decide (2 ≤ page)

theorem emptySpace_node (f : Nat) (i : Idx) (p : List Idx) :
    node child emptySpace.mem f (i :: p) = none := by
  rw [node_cons, show emptySpace.mem f i = 0 from rfl, child_zero, Option.bind_none]

theorem emptySpace_reach {levels r : Nat} {p : List Idx} {f : Nat}
    (h : Reach userFormat {frameOf 0x1000} emptySpace.mem levels r p f) :
    r = 1 ∧ p = [] ∧ f = 1 := by
  have hr : r = 1 := h.mem_roots
  cases p with
  | nil => exact ⟨hr, rfl, (Option.some.inj h.at_path).symm.trans hr⟩
  | cons i p =>
    have := reach_node h
    rw [emptySpace_node] at this
    cases this

theorem emptySpace_wellFormed : WellFormed emptySpace 0x1000 := by
  refine ⟨fun h₁ h₂ => ?_, fun _ h₂ => ?_⟩
  · obtain ⟨rfl, rfl, -⟩ := emptySpace_reach h₁
    obtain ⟨rfl, rfl, -⟩ := emptySpace_reach h₂
    exact ⟨rfl, rfl⟩
  · have hlen := h₂.length_eq
    rw [(emptySpace_reach h₂.reach).2.1] at hlen
    cases hlen

theorem emptySpace_allocApart : AllocApart emptySpace 0x1000 := by
  refine ⟨by decide, fun page hp r p h => ?_⟩
  obtain ⟨-, -, rfl⟩ := emptySpace_reach h
  exact absurd hp.2 (by decide)

/-- The page tables of the empty address space as a map, at the first page. -/
theorem pmap_refines_page_map_empty :
    pmapResolve (pmapMap emptySpace 0x1000 0x400000 0x7000 7) 0x1000 0x400123 = 0x7123 ∧
    WellFormed (pmapUnmap emptySpace 0x1000 0x400000) 0x1000 := by
  have h := @pmap_refines_page_map emptySpace 0x1000 0x400000 0x7000 7 emptySpace_wellFormed
    emptySpace_allocApart (by decide) (by decide)
  refine ⟨?_, h.2.2.2⟩
  rw [(h.1 (by decide)).1 0x400123 (by decide)]
  decide

/-- Mapping the top-level table into its own address space succeeds and leaves
a tree in which a mapped frame is a table. -/
theorem pmapMap_of_table_not_wellFormed :
    WellFormed emptySpace 0x1000 ∧ AllocApart emptySpace 0x1000 ∧
      (mapWalk emptySpace 0x1000 0 7).1.isSome ∧
      ¬ WellFormed (pmapMap emptySpace 0x1000 0 0x1000 7) 0x1000 := by
  refine ⟨emptySpace_wellFormed, emptySpace_allocApart, by decide, fun hwf => ?_⟩
  have htable : Table userFormat {frameOf 0x1000} (pmapMap emptySpace 0x1000 0 0x1000 7).mem
      1 [] 1 := ⟨by decide, admissible_nil _, by decide, rfl⟩
  have hleaf : Leaf userFormat {frameOf 0x1000} (pmapMap emptySpace 0x1000 0 0x1000 7).mem
      1 [0, 0, 0, 0] 1 := ⟨by decide, by simp [Admissible, userFormat], rfl, by decide⟩
  exact hwf.leaf_ne_table htable hleaf

end Example

end Mmix.Mm
