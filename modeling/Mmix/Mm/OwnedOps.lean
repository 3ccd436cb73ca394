import Mmix.Mm.Fault
import Mmix.Mm.Ownership

/-!
# Operations that keep the ownership of frames

Taking, mapping, unmapping and giving back single pages, writes to user pages,
and new address spaces.
-/

namespace Mmix.Mm

open Forest

namespace Owned

variable {K E R : Set Nat} {s s₁ : Vm} {page : Nat}

/-- A page taken from the allocator is held by the kernel, whatever it is
filled with. -/
theorem alloc (h : Owned K E R s) (halloc : allocFrame s = (some page, s₁)) (row : Idx → Word) :
    Owned (insert page K) E R (s₁.setFrame page row) := by
  obtain ⟨hp, htotal, hbits, hrest⟩ := allocFrame_some halloc
  have hx : Extends R s (s₁.setFrame page row) := extends_alloc h.separated h.freeApart halloc row
  have hs := h.of_extends hx
  refine { hs with held := fun f hf => ?_ }
  rcases hf with rfl | hf
  · refine ⟨fun hfree => ?_, fun r p hr => ?_, ?_⟩
    · have hbit : s₁.pmm.bitmap f = false := hfree.2
      rw [hbits, Function.update_self] at hbit
      cases hbit
    · refine h.freeApart.apart f hp r p ⟨hr.mem_roots, hr.admissible, hr.length_le, ?_⟩
      exact (node_alloc h.freeApart halloc row hr.mem_roots hr.admissible hr.length_le).symm.trans
        hr.at_path
    · rw [hx.rest]
      exact h.free_refs f hp
  · exact hs.held f hf

theorem alloc_not_held (h : Owned K E R s) (halloc : allocFrame s = (some page, s₁)) :
    page ∉ K := fun hK => (h.held page hK).1 (allocFrame_some halloc).1

theorem alloc_lt (h : Owned K E R s) (halloc : allocFrame s = (some page, s₁)) :
    page < 2 ^ 40 := h.freeApart.page_lt (allocFrame_some halloc).1

/-- Mapping a page that no address space shows. -/
theorem pmapMap {pml4Phys va flags : Word} (h : Owned K E R s) (hr : frameOf pml4Phys ∈ R)
    (hva : UserVa va) (hf : flags &&& pteAddrMask = 0) (hlt : page < 2 ^ 40)
    (hused : ¬ s.pmm.Free page) (hun : Unreached R s page) (hK : page ∉ K)
    (hcount : frameOf pml4Phys ∈ E → page < s.refsPages → s.refs page = 1) :
    Owned K E R (pmapMap s pml4Phys va (physOf page) flags) := by
  obtain ⟨hx, hend⟩ := mapWalk_spec hf h.separated h.freeApart hr hva
  have hw := h.of_extends hx
  cases hres : (mapWalk s pml4Phys va flags).1 with
  | none =>
    rw [pmapMap_of_none hres]
    exact hw
  | some t =>
    have hmap : Mm.pmapMap s pml4Phys va (physOf page) flags =
        (mapWalk s pml4Phys va flags).2.setEntry t (idx va 0)
          ((physOf page &&& pteAddrMask) ||| ptePresent ||| flags) := by
      unfold Mm.pmapMap
      rw [show pmapMapWalk va flags 3 (frameOf pml4Phys) s =
        (some t, (mapWalk s pml4Phys va flags).2) from Prod.ext hres rfl]
    rw [hmap]
    refine hw.setLeaf (hend t hres) (tablePath_length va 3) _ _ fun page' hc => ?_
    rw [child_leaf_entry _ hf, target_physOf hlt] at hc
    cases hc
    refine ⟨hx.not_free hused, unreached_extends hx hused hun, hK, ?_⟩
    rw [hx.rest]
    exact hcount

/-- Mapping a page fresh from the allocator into a space that is not counted. -/
theorem map_fresh {pml4Phys va flags : Word} (h : Owned K E R s)
    (halloc : allocFrame s = (some page, s₁)) (row : Idx → Word) (hr : frameOf pml4Phys ∈ R)
    (hE : frameOf pml4Phys ∉ E) (hva : UserVa va) (hf : flags &&& pteAddrMask = 0) :
    Owned K E R (Mm.pmapMap (s₁.setFrame page row) pml4Phys va (physOf page) flags) := by
  have hs := h.alloc halloc row
  obtain ⟨hused, hun, -⟩ := hs.held page (Set.mem_insert _ _)
  exact (hs.mono (Set.subset_insert _ _) subset_rfl subset_rfl).pmapMap hr hva hf
    (h.alloc_lt halloc) hused hun (h.alloc_not_held halloc) fun hc => absurd hc hE

/-- Mapping a page fresh from the allocator and counting it. -/
theorem map_counted {pml4Phys va flags : Word} (h : Owned K E R s)
    (halloc : allocFrame s = (some page, s₁)) (row : Idx → Word) (hr : frameOf pml4Phys ∈ R)
    (hva : UserVa va) (hf : flags &&& pteAddrMask = 0) :
    Owned K E R (Mm.pmapMap (frameRefInc (s₁.setFrame page row) (physOf page)) pml4Phys va
      (physOf page) flags) := by
  have hs := h.alloc halloc row
  have hlt := h.alloc_lt halloc
  have hK := h.alloc_not_held halloc
  obtain ⟨hused, hun, hz⟩ := hs.held page (Set.mem_insert _ _)
  have hs' := hs.mono (Set.subset_insert _ _) subset_rfl subset_rfl
  have hframe : frameOf (physOf page) = page := frameOf_physOf hlt
  unfold frameRefInc
  by_cases hv : refValid (s₁.setFrame page row) (physOf page)
  · rw [if_pos hv, hframe]
    have hinc : Owned K E R { s₁.setFrame page row with
        refs := Function.update (s₁.setFrame page row).refs page
          ((s₁.setFrame page row).refs page + 1) } :=
      hs'.of_frame hun hK rfl rfl (fun _ _ => rfl) (fun g hg => Function.update_of_ne hg ..)
        rfl fun hfree => absurd hfree hused
    refine hinc.pmapMap hr hva hf hlt hused hun hK fun _ _ => ?_
    simp only [Function.update_self, hz]
    rfl
  · rw [if_neg hv]
    refine hs'.pmapMap hr hva hf hlt hused hun hK fun _ hlt' => absurd ?_ hv
    unfold refValid
    rwa [hframe]

section Unmap

variable {pml4Phys va : Word}

/-- The address that `pmap_resolve` returns for a page in a frame. -/
theorem resolved_toNat {f : Nat} (hf : f < 2 ^ 40) (va : Word) :
    (physOf f ||| (va &&& 0xFFF)).toNat = f * 4096 + va.toNat % 4096 := by
  have hlow : (va &&& 0xFFF).toNat = va.toNat % 2 ^ 12 := by
    rw [BitVec.toNat_and]
    exact Nat.and_two_pow_sub_one_eq_mod _ 12
  have hphys : (physOf f).toNat = f <<< 12 := by
    rw [physOf_toNat hf, Nat.shiftLeft_eq]
  rw [BitVec.toNat_or, hphys, hlow,
    ← Nat.shiftLeft_add_eq_or_of_lt (Nat.mod_lt _ (by decide)), Nat.shiftLeft_eq]

theorem frameOf_resolved {f : Nat} (hf : f < 2 ^ 40) (va : Word) :
    frameOf (physOf f ||| (va &&& 0xFFF)) = f := by
  unfold frameOf pageSize
  rw [resolved_toNat hf]
  omega

/-- A resolved address keeps its offset in the page. -/
theorem pmapResolve_mod (hz : pmapResolve s pml4Phys va ≠ 0) :
    (pmapResolve s pml4Phys va).toNat % 4096 = va.toNat % 4096 ∧
      (pmapResolve s pml4Phys va).toNat < 2 ^ 52 := by
  rw [pmapResolve_eq] at hz ⊢
  cases hn : node child s.mem (frameOf pml4Phys) (pagePath va) with
  | none =>
    rw [hn] at hz
    exact absurd rfl hz
  | some f =>
    have hf : f < 2 ^ 40 := node_lt (by simp [pagePath]) hn
    dsimp only
    rw [resolved_toNat hf]
    omega

/-- The entry that `pmap_resolve` found. -/
theorem pmapResolve_ne_zero (hz : pmapResolve s pml4Phys va ≠ 0) :
    ∃ t f, node child s.mem (frameOf pml4Phys) (tablePath va 3) = some t ∧
      child (s.mem t (idx va 0)) = some f ∧ frameOf (pmapResolve s pml4Phys va) = f := by
  rw [pmapResolve_eq] at hz ⊢
  cases hn : node child s.mem (frameOf pml4Phys) (pagePath va) with
  | none =>
    rw [hn] at hz
    exact absurd rfl hz
  | some f =>
    rw [pagePath, node_concat, Option.bind_eq_some_iff] at hn
    obtain ⟨t, ht, hc⟩ := hn
    exact ⟨t, f, ht, hc, frameOf_resolved (child_lt hc) va⟩

/-- Unmapping a page and dropping its reference. -/
theorem unmap (h : Owned K E R s) (hr : frameOf pml4Phys ∈ R) (hva : UserVa va)
    (hz : pmapResolve s pml4Phys va ≠ 0) :
    Owned K E R (pmapUnmap (destroyLeaf s (pmapResolve s pml4Phys va)) pml4Phys va) := by
  obtain ⟨t, f, ht, hc, hf⟩ := pmapResolve_ne_zero hz
  have htab := table_tablePath hr hva ht
  have hleaf : Leaf userFormat R s.mem (frameOf pml4Phys) (pagePath va) f :=
    ⟨hr, admissible_pagePath hva, pagePath_length va, (node_pagePath ht).trans hc⟩
  have hrel : Releases {f} s (destroyLeaf s (pmapResolve s pml4Phys va)) :=
    Releases.destroyLeaf hf
  have hun : pmapUnmap (destroyLeaf s (pmapResolve s pml4Phys va)) pml4Phys va =
      (destroyLeaf s (pmapResolve s pml4Phys va)).setEntry t (idx va 0) 0 := by
    unfold pmapUnmap
    rw [pmapPte_eq_some.mpr ⟨by rw [hrel.mem]; exact ht, rfl⟩]
  rw [hun]
  -- The entry is emptied first, so that the freed page is in no address space.
  have hs := h.setLeaf htab (tablePath_length va 3) (idx va 0) 0 fun page hp => by
    rw [child_zero] at hp
    cases hp
  refine hs.of_releases (hrel.setEntry t (idx va 0) 0) subset_rfl fun g hg => ?_
  obtain rfl : g = f := hg
  exact ⟨h.unreached_setLeaf htab (tablePath_length va 3) hleaf,
    fun hK => (h.held g hK).2.1 _ _ hleaf.reach⟩

end Unmap

section Kernel

/-- The content of a frame that is no table may change. -/
theorem setFrame {f : Nat} (h : Owned K E R s) (hf : ∀ r p, ¬ Table userFormat R s.mem r p f)
    (row : Idx → Word) : Owned K E R (s.setFrame f row) := by
  refine h.of_agree (fun r p g ht => Vm.setFrame_of_ne _ _ ?_) rfl rfl rfl
  rintro rfl
  exact hf r p ht

/-- The page that `pmap_resolve` finds in the user half is no table. -/
theorem resolve_not_table {pml4Phys va : Word} (h : Owned K E R s) (hr : frameOf pml4Phys ∈ R)
    (hva : UserVa va) (r : Nat) (p : List Idx) :
    ¬ Table userFormat R s.mem r p (frameOf (pmapResolve s pml4Phys va)) := by
  by_cases hz : pmapResolve s pml4Phys va = 0
  · rw [hz]
    exact h.nonzero
  · obtain ⟨t, f, ht, hc, hf⟩ := pmapResolve_ne_zero hz
    rw [hf]
    intro htab
    exact h.separated.leaf_ne_table htab ⟨hr, admissible_pagePath hva, pagePath_length va,
      (node_pagePath ht).trans hc⟩

/-- A run of pages taken from the allocator is held by the kernel. -/
theorem take {pages page : Nat} {pmm : Pmm} (h : Owned K E R s)
    (halloc : pmmAlloc pages s.pmm = (some page, pmm)) :
    Owned (K ∪ {f | page ≤ f ∧ f < page + pages}) E R { s with pmm := pmm } ∧
      ∀ f, page ≤ f → f < page + pages → f ∉ K := by
  obtain ⟨-, hle, hclear, htotal, hbits⟩ := pmmAllocBelow_some halloc
  have hwas {f : Nat} (hf : pmm.Free f) : s.pmm.Free f ∧ ¬ (page ≤ f ∧ f < page + pages) := by
    obtain ⟨hlt, hbit⟩ := hf
    rw [hbits] at hbit
    dsimp only at hbit
    split at hbit
    next => cases hbit
    next hout => exact ⟨⟨htotal ▸ hlt, hbit⟩, hout⟩
  have hrun {f : Nat} (hf : page ≤ f ∧ f < page + pages) : s.pmm.Free f :=
    ⟨by omega, hclear f hf.1 hf.2⟩
  refine ⟨{ h with
    freeApart := ⟨htotal.trans_le h.freeApart.total_le, fun f hf => h.freeApart.apart f (hwas hf).1⟩
    free_refs := fun f hf => h.free_refs f (hwas hf).1
    held := fun f hf => ?_ }, fun f hl hu hK => (h.held f hK).1 (hrun ⟨hl, hu⟩)⟩
  rcases hf with hf | hf
  · obtain ⟨hused, hrest⟩ := h.held f hf
    exact ⟨fun hfree => hused (hwas hfree).1, hrest⟩
  · exact ⟨fun hfree => (hwas hfree).2 hf, fun r p hr => h.freeApart.apart f (hrun hf) r p hr,
      h.free_refs f (hrun hf)⟩

/-- A run of held pages is given back. -/
theorem give {pages page : Nat} (h : Owned K E R s)
    (hheld : {f | page ≤ f ∧ f < page + pages} ⊆ K) :
    Owned (K \ {f | page ≤ f ∧ f < page + pages}) E R
      { s with pmm := pmmFree page pages s.pmm } := by
  obtain ⟨htotal, hbits⟩ := pmmFree_frame page pages s.pmm
  have hrel : Releases {f | page ≤ f ∧ f < page + pages} s
      { s with pmm := pmmFree page pages s.pmm } := by
    refine ⟨rfl, htotal, rfl, fun f hf => ?_, fun _ => id, fun _ _ => rfl⟩
    by_cases hin : page ≤ f ∧ f < page + pages
    · exact Or.inr ⟨hin, (h.held f (hheld hin)).2.2⟩
    · exact Or.inl ⟨htotal ▸ hf.1, (hbits f hin).symm.trans hf.2⟩
  refine (h.mono Set.sdiff_subset subset_rfl subset_rfl).of_releases hrel subset_rfl fun f hf => ?_
  exact ⟨(h.held f (hheld hf)).2.1, fun hK => hK.2 hf⟩

end Kernel

section Fault

variable {pml4Phys va errCode : Word} {t f : Nat} {i : Idx}

/-- A count above one belongs to no table, no held page and no counted space. -/
theorem cowLowered (h : Owned K E R s) (hf : f < s.refsPages) (hc : 1 < s.refs f) :
    Owned K E R (cowLowered s f) := by
  have hrefs {g : Nat} (hg : s.refs g = 0 ∨ g < s.refsPages ∧ s.refs g = 1) :
      (Mm.cowLowered s f).refs g = s.refs g := by
    refine Function.update_of_ne ?_ ..
    rintro rfl
    rcases hg with hz | ⟨-, hone⟩
    · rw [hz] at hc
      exact absurd hc (by decide)
    · rw [hone] at hc
      exact absurd hc (by decide)
  exact { h with
    freeApart := ⟨h.freeApart.total_le, h.freeApart.apart⟩
    free_refs := fun g hg => (hrefs (Or.inl (h.free_refs g hg))).trans (h.free_refs g hg)
    table_refs := fun ht => (hrefs (Or.inl (h.table_refs ht))).trans (h.table_refs ht)
    held := fun g hg => ⟨(h.held g hg).1, (h.held g hg).2.1,
      (hrefs (Or.inl (h.held g hg).2.2)).trans (h.held g hg).2.2⟩
    counted := fun hl hr hlt =>
      (hrefs (Or.inr ⟨hlt, h.counted hl hr hlt⟩)).trans (h.counted hl hr hlt) }

/-- Breaking a copy-on-write mapping. -/
theorem cowFault (h : Owned K E R s) (hr : frameOf pml4Phys ∈ R) (hva : UserVa va)
    (hcow : CowFault s pml4Phys va errCode t i) (hz : pml4Phys ≠ 0) :
    Owned K E R (pmapHandleFault s pml4Phys va errCode).2 := by
  obtain ⟨ht, rfl⟩ := pmapPte_eq_some.mp hcow.2.2.1
  have htab := table_tablePath hr hva ht
  rw [handleFault_cow hz hcow]
  split
  next hcond =>
    have hlow := h.cowLowered hcond.1 hcond.2
    split
    next s₁ halloc =>
      rw [allocFrame_none halloc]
      exact hlow
    next frame s₁ halloc =>
      have hs := hlow.alloc halloc (s₁.mem (target (s.mem t (idx va 0))))
      have hx := extends_alloc hlow.separated hlow.freeApart halloc
        (s₁.mem (target (s.mem t (idx va 0))))
      obtain ⟨hused, hun, -⟩ := hs.held frame (Set.mem_insert _ _)
      have hK := hlow.alloc_not_held halloc
      have hone : Owned K E R { s₁.setFrame frame (s₁.mem (target (s.mem t (idx va 0)))) with
          refs := Function.update s₁.refs frame 1 } :=
        (hs.mono (Set.subset_insert _ _) subset_rfl subset_rfl).of_frame hun hK rfl rfl
          (fun _ _ => rfl) (fun g hg => Function.update_of_ne hg ..) rfl
          fun hfree => absurd hfree hused
      refine hone.setLeaf (hx.tables htab) (tablePath_length va 3) _ _ fun page hp => ?_
      have hword : child (copyWord (s.mem t (idx va 0)) frame) = some frame :=
        child_table_entry (hlow.alloc_lt halloc) (and_pteUser_pteAddrMask _)
      rw [hword] at hp
      cases hp
      exact ⟨hused, hun, hK, fun _ _ => Function.update_self ..⟩
  next =>
    refine h.of_nodes (fun r hr' p ha hl => ?_) rfl rfl rfl
    exact node_setOwned h.separated hr hva ht hr' ha hl

/-- The fault handler on a fault in the user half. The stack of a counted space
must not grow. -/
theorem handleFault (h : Owned K E R s) (hr : frameOf pml4Phys ∈ R) (hz : pml4Phys ≠ 0)
    (hcow : ∀ t i, CowFault s pml4Phys va errCode t i → UserVa va)
    (hstack : frameOf pml4Phys ∈ E →
      ¬ (StackFault va errCode ∧ pmapResolve s pml4Phys (va &&& ~~~0xFFF) = 0)) :
    Owned K E R (pmapHandleFault s pml4Phys va errCode).2 := by
  by_cases hst : StackFault va errCode ∧ pmapResolve s pml4Phys (va &&& ~~~0xFFF) = 0
  · rw [handleFault_stack hz hst.1 hst.2]
    split
    next s₁ halloc =>
      rw [allocFrame_none halloc]
      exact h
    next frame s₁ halloc =>
      exact h.map_fresh halloc _ hr (fun hE => hstack hE hst) (userVa_aligned hst.1.userVa)
        (by decide)
  · by_cases hc : ∃ t i, CowFault s pml4Phys va errCode t i
    · obtain ⟨t, i, hc⟩ := hc
      exact h.cowFault hr (hcow t i hc) hc hz
    · rw [handleFault_other hst fun t i hti => hc ⟨t, i, hti⟩]
      exact h

/-- A fault that is not resolved lowers a count at most. -/
theorem handleFault_failed (h : Owned K E R s)
    (hfail : (pmapHandleFault s pml4Phys va errCode).1 = false) :
    Owned K E R (pmapHandleFault s pml4Phys va errCode).2 := by
  by_cases hz : pml4Phys = 0
  · unfold pmapHandleFault
    rw [if_pos hz]
    exact h
  by_cases hst : StackFault va errCode ∧ pmapResolve s pml4Phys (va &&& ~~~0xFFF) = 0
  · rw [handleFault_stack hz hst.1 hst.2] at hfail ⊢
    split at hfail
    next s₁ halloc =>
      rw [allocFrame_none halloc]
      exact h
    next => cases hfail
  · by_cases hc : ∃ t i, CowFault s pml4Phys va errCode t i
    · obtain ⟨t, i, hc⟩ := hc
      rw [handleFault_cow hz hc] at hfail ⊢
      split at hfail
      next hcond =>
        rw [if_pos hcond]
        split at hfail
        next s₁ halloc =>
          rw [allocFrame_none halloc]
          exact h.cowLowered hcond.1 hcond.2
        next => cases hfail
      next => cases hfail
    · rw [handleFault_other hst fun t i hti => hc ⟨t, i, hti⟩]
      exact h

end Fault

end Owned

end Mmix.Mm
