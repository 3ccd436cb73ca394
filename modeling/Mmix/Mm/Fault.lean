import Mmix.Mm.RefCount
import Mmix.Mm.Translation

/-!
# Page-fault resolution

What `pmap_handle_fault` promises for a set of address spaces whose reference
counts are exact, and exactly when it keeps that promise.
-/

namespace Mmix.Mm

open Forest Option

/-- The leaf entry of an address allows the access. -/
def Accessible (s : Vm) (pml4Phys va : Word) (write : Prop) : Prop :=
  ∃ t i, pmapPte s pml4Phys va = some (t, i) ∧ s.mem t i &&& ptePresent ≠ 0 ∧
    (write → s.mem t i &&& pteWrite ≠ 0)

/-- The words visible at a page of an address space. -/
def pageView (s : Vm) (r : Nat) (p : List Idx) : Option (Idx → Word) :=
  (node child s.mem r p).map s.mem

/-- Address spaces whose reference counts are exact. Their tables are
separated, free pages are in none of them and have a counter, and the kernel
half has no copy-on-write page. -/
structure Population (roots : Set Nat) (s : Vm) : Prop where
  finite : roots.Finite
  separated : Separated userFormat roots s.mem
  freeApart : FreeApart roots s
  refs : RefsExact roots s
  covered : ∀ page, s.pmm.Free page → page < s.refsPages
  kernel : ∀ pml4Phys va t i, frameOf pml4Phys ∈ roots → ¬ UserVa va →
    pmapPte s pml4Phys va = some (t, i) → s.mem t i &&& pteCow = 0

/-- The contract of a call of `pmap_handle_fault`. A resolved fault lets the
access succeed and shows the same words everywhere, zeros for a page the stack
has grown by; a refused fault changes nothing. -/
structure FaultContract (roots : Set Nat) (s : Vm) (pml4Phys va errCode : Word) : Prop where
  resolved : (pmapHandleFault s pml4Phys va errCode).1 = true →
    Accessible (pmapHandleFault s pml4Phys va errCode).2 pml4Phys va (errCode &&& 2 ≠ 0) ∧
    pageView (pmapHandleFault s pml4Phys va errCode).2 (frameOf pml4Phys) (pagePath va) =
      (if errCode &&& 1 = 0 then some fun _ => 0
        else pageView s (frameOf pml4Phys) (pagePath va)) ∧
    (∀ r ∈ roots, ∀ p, Admissible userFormat p → p.length = 4 →
      (r, p) ≠ (frameOf pml4Phys, pagePath va) →
      pageView (pmapHandleFault s pml4Phys va errCode).2 r p = pageView s r p) ∧
    RefsExact roots (pmapHandleFault s pml4Phys va errCode).2
  refused : (pmapHandleFault s pml4Phys va errCode).1 = false →
    (pmapHandleFault s pml4Phys va errCode).2.mem = s.mem ∧
    (pmapHandleFault s pml4Phys va errCode).2.refs = s.refs ∧
    (pmapHandleFault s pml4Phys va errCode).2.pmm.bitmap = s.pmm.bitmap

/-- The fault asks for a stack page. -/
def StackFault (va errCode : Word) : Prop :=
  errCode &&& 1 = 0 ∧ errCode &&& 4 ≠ 0 ∧ va < userStackTopVa ∧
    userStackTopVa - userStackMaxSize ≤ va

/-- The fault is a write that reaches a copy-on-write entry. -/
def CowFault (s : Vm) (pml4Phys va errCode : Word) (t : Nat) (i : Idx) : Prop :=
  errCode &&& 1 ≠ 0 ∧ errCode &&& 2 ≠ 0 ∧ pmapPte s pml4Phys va = some (t, i) ∧
    s.mem t i &&& pteCow ≠ 0

/-- The cases in which the contract is broken: the stack grows, whose new page
is never counted and may even be left unmapped; a copy-on-write entry is not
present; or a shared page is to be copied and no frame is left, after the
count was lowered. -/
def FaultBreaks (s : Vm) (pml4Phys va errCode : Word) : Prop :=
  pml4Phys ≠ 0 ∧
    ((StackFault va errCode ∧ pmapResolve s pml4Phys (va &&& ~~~0xFFF) = 0 ∧
        ∃ page, s.pmm.Free page) ∨
      ∃ t i, CowFault s pml4Phys va errCode t i ∧
        (s.mem t i &&& ptePresent = 0 ∨
          refValid s (s.mem t i &&& pteAddrMask) ∧ 1 < s.refs (target (s.mem t i)) ∧
            ∀ page, ¬ s.pmm.Free page))

section Bits

theorem idx_aligned (va : Word) (level : Nat) : idx (va &&& ~~~0xFFF) level = idx va level := by
  apply Fin.ext
  rw [idx_val_page, idx_val_page]
  rw [toNat_pageDown, Nat.mul_div_cancel _ (by decide)]

theorem tablePath_aligned (va : Word) (level : Nat) :
    tablePath (va &&& ~~~0xFFF) level = tablePath va level := by
  induction level with
  | zero => rfl
  | succ level ih => simp only [tablePath, idx_aligned, ih]

theorem pagePath_aligned (va : Word) : pagePath (va &&& ~~~0xFFF) = pagePath va := by
  simp only [pagePath, tablePath_aligned, idx_aligned]

theorem userVa_aligned {va : Word} (h : UserVa va) : UserVa (va &&& ~~~0xFFF) := by
  unfold UserVa
  rwa [idx_aligned]

theorem StackFault.userVa {va errCode : Word} (h : StackFault va errCode) : UserVa va := by
  apply userVa_of_lt
  have := h.2.2.1
  simp only [userStackTopVa, BitVec.lt_def] at this
  have h70 : (0x70000000 : Word).toNat = 0x70000000 := by decide
  omega

theorem and_pteUser_pteAddrMask (w : Word) :
    (w &&& (pteUser ||| pteNocache)) &&& pteAddrMask = 0 := by
  rw [BitVec.and_assoc, show (pteUser ||| pteNocache) &&& pteAddrMask = 0#64 by decide,
    BitVec.and_zero]
  rfl

theorem or_pteWrite_and (w flags : Word) : (w ||| pteWrite ||| flags) &&& pteWrite ≠ 0 := by
  intro h
  have hbit : ((w ||| pteWrite ||| flags) &&& pteWrite).getLsbD 1 = false := by
    rw [h]; simp
  simp [pteWrite] at hbit

/-- The word written for a page with one owner. -/
def ownedWord (w : Word) : Word := (w ||| pteWrite) &&& ~~~pteCow

theorem ownedWord_and (w m : Word) (hm : m &&& ~~~pteCow = m) (hw : pteWrite &&& m = 0#64) :
    ownedWord w &&& m = w &&& m := by
  unfold ownedWord
  rw [BitVec.and_assoc, BitVec.and_comm (~~~pteCow) m, hm, BitVec.and_or_distrib_right, hw,
    BitVec.or_zero]

theorem child_ownedWord (w : Word) : child (ownedWord w) = child w := by
  unfold child target
  rw [ownedWord_and w ptePresent (by decide) (by decide),
    ownedWord_and w pteAddrMask (by decide) (by decide)]

theorem ownedWord_pteWrite (w : Word) : ownedWord w &&& pteWrite ≠ 0 := by
  intro h
  have hbit : (ownedWord w &&& pteWrite).getLsbD 1 = false := by
    rw [h]; simp
  simp [ownedWord, pteWrite, pteCow] at hbit

end Bits

section Leaf

variable {roots : Set Nat} {s : Vm} {pml4Phys va : Word} {t : Nat}

theorem pmapPte_eq_some {i : Idx} : pmapPte s pml4Phys va = some (t, i) ↔
    node child s.mem (frameOf pml4Phys) (tablePath va 3) = some t ∧ idx va 0 = i := by
  unfold pmapPte
  rw [pmapPteWalk_eq]
  simp

/-- The page of an address is the target of its leaf entry. -/
theorem node_pagePath (ht : node child s.mem (frameOf pml4Phys) (tablePath va 3) = some t) :
    node child s.mem (frameOf pml4Phys) (pagePath va) = child (s.mem t (idx va 0)) := by
  rw [pagePath, node_concat, ht]
  rfl

theorem table_tablePath (hr : frameOf pml4Phys ∈ roots) (hva : UserVa va)
    (ht : node child s.mem (frameOf pml4Phys) (tablePath va 3) = some t) :
    Table userFormat roots s.mem (frameOf pml4Phys) (tablePath va 3) t :=
  ⟨hr, (admissible_pagePath hva).init, (tablePath_length va 3).le, ht⟩

/-- Writing the leaf entry of an address moves its page and nothing else. -/
theorem node_setLeaf (hsep : Separated userFormat roots s.mem)
    (hr : frameOf pml4Phys ∈ roots) (hva : UserVa va)
    (ht : node child s.mem (frameOf pml4Phys) (tablePath va 3) = some t) (w : Word)
    {r : Nat} (hr' : r ∈ roots) {p : List Idx} (ha : Admissible userFormat p)
    (hl : p.length ≤ 4) : node child (s.setEntry t (idx va 0) w).mem r p =
      if r = frameOf pml4Phys ∧ p = pagePath va then child w else node child s.mem r p :=
  node_setCell_last hsep (table_tablePath hr hva ht) (tablePath_length va 3) (idx va 0) w hr' ha hl

theorem accessible_setLeaf (hsep : Separated userFormat roots s.mem)
    (hr : frameOf pml4Phys ∈ roots) (hva : UserVa va)
    (ht : node child s.mem (frameOf pml4Phys) (tablePath va 3) = some t) {w : Word}
    (hp : w &&& ptePresent ≠ 0) (hw : w &&& pteWrite ≠ 0) (write : Prop) :
    Accessible (s.setEntry t (idx va 0) w) pml4Phys va write := by
  refine ⟨t, idx va 0, pmapPte_eq_some.mpr ⟨?_, rfl⟩, ?_⟩
  · have ha : Admissible userFormat (tablePath va 3) := (admissible_pagePath hva).init
    have hlen : (tablePath va 3).length ≤ 4 := (tablePath_length va 3).le.trans (by decide)
    rw [node_setLeaf hsep hr hva ht w hr ha hlen, if_neg, ht]
    rintro ⟨-, hp⟩
    have := congrArg List.length hp
    rw [tablePath_length, pagePath_length] at this
    omega
  · have : (s.setEntry t (idx va 0) w).mem t (idx va 0) = w := setCell_same _ _ _ _
    rw [this]
    exact ⟨hp, fun _ => hw⟩

theorem pageView_congr {s' : Vm} {r : Nat} {p : List Idx}
    (hnode : node child s'.mem r p = node child s.mem r p)
    (hmem : ∀ g, node child s.mem r p = some g → s'.mem g = s.mem g) :
    pageView s' r p = pageView s r p := by
  unfold pageView
  rw [hnode]
  cases hn : node child s.mem r p with
  | none => rfl
  | some g => simp [hmem g hn]

end Leaf

section Owned

variable {roots : Set Nat} {s : Vm} {pml4Phys va : Word} {t : Nat}

/-- Taking sole ownership of a page moves nothing. -/
theorem node_setOwned (hsep : Separated userFormat roots s.mem)
    (hr : frameOf pml4Phys ∈ roots) (hva : UserVa va)
    (ht : node child s.mem (frameOf pml4Phys) (tablePath va 3) = some t)
    {r : Nat} (hr' : r ∈ roots) {p : List Idx} (ha : Admissible userFormat p)
    (hl : p.length ≤ 4) :
    node child (s.setEntry t (idx va 0) (ownedWord (s.mem t (idx va 0)))).mem r p =
      node child s.mem r p := by
  rw [node_setLeaf hsep hr hva ht _ hr' ha hl]
  by_cases hc : r = frameOf pml4Phys ∧ p = pagePath va
  · rw [if_pos hc, hc.1, hc.2, node_pagePath ht, child_ownedWord]
  · rw [if_neg hc]

theorem pageView_setOwned (hsep : Separated userFormat roots s.mem)
    (hr : frameOf pml4Phys ∈ roots) (hva : UserVa va)
    (ht : node child s.mem (frameOf pml4Phys) (tablePath va 3) = some t)
    {r : Nat} (hr' : r ∈ roots) {p : List Idx} (ha : Admissible userFormat p)
    (hl : p.length = 4) :
    pageView (s.setEntry t (idx va 0) (ownedWord (s.mem t (idx va 0)))) r p =
      pageView s r p := by
  refine pageView_congr (node_setOwned hsep hr hva ht hr' ha hl.le) fun g hg => ?_
  apply setCell_row_of_ne
  rintro rfl
  exact hsep.leaf_ne_table (table_tablePath hr hva ht) ⟨hr', ha, hl, hg⟩

theorem refsExact_setOwned (hpop : Population roots s) (hr : frameOf pml4Phys ∈ roots)
    (hva : UserVa va) (ht : node child s.mem (frameOf pml4Phys) (tablePath va 3) = some t) :
    RefsExact roots (s.setEntry t (idx va 0) (ownedWord (s.mem t (idx va 0)))) := by
  intro f hf
  refine (hpop.refs f hf).trans (leafCount_congr fun r p => ?_).symm
  apply leaf_congr
  exact fun r hr' p ha hl => node_setOwned hpop.separated hr hva ht hr' ha hl

end Owned

section Copy

variable {roots : Set Nat} {s s₁ : Vm} {pml4Phys va : Word} {t frame : Nat}

/-- The entry for a private copy of a page. -/
def copyWord (w : Word) (frame : Nat) : Word :=
  physOf frame ||| ptePresent ||| pteWrite ||| (w &&& (pteUser ||| pteNocache))

theorem copyWord_ptePresent (w : Word) (frame : Nat) :
    copyWord w frame &&& ptePresent ≠ 0 := by
  unfold copyWord
  rw [BitVec.or_assoc (physOf frame ||| ptePresent)]
  exact or_ptePresent_and _ _

/-- The state after `pmap_handle_fault` has copied a shared page: `s₁` is the
state after the allocation of the new frame. -/
def cowCopied (s s₁ : Vm) (t : Nat) (i : Idx) (frame : Nat) : Vm :=
  ({ s₁.setFrame frame (s₁.mem (target (s.mem t i))) with
      refs := Function.update s₁.refs frame 1 }).setEntry t i (copyWord (s.mem t i) frame)

/-- The state after the count of a shared page was lowered. -/
def cowLowered (s : Vm) (f : Nat) : Vm :=
  { s with refs := Function.update s.refs f (s.refs f - 1) }

/-- The frame of a copied page comes from the free pages, and only that frame
and the leaf entry are written. -/
theorem node_cowCopied (hpop : Population roots s) (hr : frameOf pml4Phys ∈ roots)
    (hva : UserVa va) (ht : node child s.mem (frameOf pml4Phys) (tablePath va 3) = some t)
    {f : Nat} (halloc : allocFrame (cowLowered s f) = (some frame, s₁))
    {r : Nat} (hr' : r ∈ roots) {p : List Idx} (ha : Admissible userFormat p)
    (hl : p.length ≤ 4) : node child (cowCopied s s₁ t (idx va 0) frame).mem r p =
      if r = frameOf pml4Phys ∧ p = pagePath va then some frame else node child s.mem r p := by
  have hsep : Separated userFormat roots (cowLowered s f).mem := hpop.separated
  have hfree : FreeApart roots (cowLowered s f) := ⟨hpop.freeApart.total_le, hpop.freeApart.apart⟩
  obtain ⟨hfr, -, -, -⟩ := allocFrame_some halloc
  have hext := extends_alloc hsep hfree halloc (s₁.mem (target (s.mem t (idx va 0))))
  have ht' := (hext.tables (table_tablePath hr hva ht)).at_path
  have hset := node_setLeaf hext.separated hr hva ht' (copyWord (s.mem t (idx va 0)) frame)
    hr' ha hl
  have hword : child (copyWord (s.mem t (idx va 0)) frame) = some frame :=
    child_table_entry (hfree.page_lt hfr) (and_pteUser_pteAddrMask _)
  have hold := node_alloc hfree halloc (s₁.mem (target (s.mem t (idx va 0)))) hr' ha hl
  rw [hword] at hset
  exact hset.trans (by rw [← userFormat_child, hold]; rfl)

theorem mem_cowCopied {f : Nat} (halloc : allocFrame (cowLowered s f) = (some frame, s₁))
    {i : Idx} {g : Nat} (ht : g ≠ t) (hf : g ≠ frame) :
    (cowCopied s s₁ t i frame).mem g = s.mem g := by
  obtain ⟨-, -, -, hrest⟩ := allocFrame_some halloc
  refine (setCell_row_of_ne _ _ _ ht).trans ?_
  refine (Vm.setFrame_of_ne _ _ hf).trans ?_
  rw [hrest]
  rfl

/-- Copying a shared page keeps the fault contract. -/
theorem cowCopied_resolves (hpop : Population roots s) (hr : frameOf pml4Phys ∈ roots)
    (hva : UserVa va) (ht : node child s.mem (frameOf pml4Phys) (tablePath va 3) = some t)
    (hpres : s.mem t (idx va 0) &&& ptePresent ≠ 0)
    (hvalid : target (s.mem t (idx va 0)) < s.refsPages)
    (hshared : 1 < s.refs (target (s.mem t (idx va 0))))
    (halloc : allocFrame (cowLowered s (target (s.mem t (idx va 0)))) = (some frame, s₁)) :
    Accessible (cowCopied s s₁ t (idx va 0) frame) pml4Phys va True ∧
    pageView (cowCopied s s₁ t (idx va 0) frame) (frameOf pml4Phys) (pagePath va) =
      pageView s (frameOf pml4Phys) (pagePath va) ∧
    (∀ r ∈ roots, ∀ p, Admissible userFormat p → p.length = 4 →
      (r, p) ≠ (frameOf pml4Phys, pagePath va) →
      pageView (cowCopied s s₁ t (idx va 0) frame) r p = pageView s r p) ∧
    RefsExact roots (cowCopied s s₁ t (idx va 0) frame) := by
  obtain ⟨hfr, -, -, hrest⟩ := allocFrame_some halloc
  have hfr : s.pmm.Free frame := hfr
  have htable : Table userFormat roots s.mem (frameOf pml4Phys) (tablePath va 3) t :=
    table_tablePath hr hva ht
  have hpage : Leaf userFormat roots s.mem (frameOf pml4Phys) (pagePath va)
      (target (s.mem t (idx va 0))) :=
    ⟨hr, admissible_pagePath hva, pagePath_length va,
      (node_pagePath ht).trans (child_eq_some hpres)⟩
  have happart : ∀ r p, ¬ Reach userFormat roots s.mem 4 r p frame :=
    hpop.freeApart.apart frame hfr
  have hft : frame ≠ t := by
    rintro rfl
    exact happart _ _ ⟨htable.mem_roots, htable.admissible,
      htable.length_le.trans (by decide), htable.at_path⟩
  have hleafne : ∀ {r p g}, Leaf userFormat roots s.mem r p g → g ≠ t ∧ g ≠ frame := by
    intro r p g hg
    refine ⟨?_, ?_⟩
    · rintro rfl
      exact hpop.separated.leaf_ne_table htable hg
    · rintro rfl
      exact happart r p hg.reach
  have hnode := fun {r} (hr' : r ∈ roots) {p} ha hl =>
    node_cowCopied (p := p) hpop hr hva ht halloc hr' ha hl
  refine ⟨?_, ?_, ?_, ?_⟩
  · have hsep : Separated userFormat roots (cowLowered s (target (s.mem t (idx va 0)))).mem :=
      hpop.separated
    have hfree : FreeApart roots (cowLowered s (target (s.mem t (idx va 0)))) :=
      ⟨hpop.freeApart.total_le, hpop.freeApart.apart⟩
    have hext := extends_alloc hsep hfree halloc (s₁.mem (target (s.mem t (idx va 0))))
    have ht' := (hext.tables htable).at_path
    exact accessible_setLeaf hext.separated hr hva ht' (copyWord_ptePresent _ _)
      (or_pteWrite_and _ _) True
  · have hview : (cowCopied s s₁ t (idx va 0) frame).mem frame =
        s.mem (target (s.mem t (idx va 0))) := by
      refine (setCell_row_of_ne _ _ _ hft).trans ?_
      refine (Vm.setFrame_self _ _ _).trans ?_
      rw [hrest]
      rfl
    unfold pageView
    rw [hnode hr (admissible_pagePath hva) (pagePath_length va).le, if_pos ⟨rfl, rfl⟩]
    rw [show node child s.mem (frameOf pml4Phys) (pagePath va) = _ from hpage.at_path]
    simp only [map_some, hview]
  · intro r hr' p ha hl hne
    have hsame : node child (cowCopied s s₁ t (idx va 0) frame).mem r p =
        node child s.mem r p := by
      rw [hnode hr' ha hl.le, if_neg]
      exact fun h => hne (Prod.ext h.1 h.2)
    refine pageView_congr hsame fun g hg => ?_
    obtain ⟨h₁, h₂⟩ := hleafne ⟨hr', ha, hl, hg⟩
    exact mem_cowCopied halloc h₁ h₂
  · have hwrite : LeafWrite roots s.mem (cowCopied s s₁ t (idx va 0) frame).mem
        (frameOf pml4Phys, pagePath va) (some frame) :=
      LeafWrite.of_node hr (admissible_pagePath hva) (pagePath_length va)
        fun r hr' p ha hl => hnode hr' ha hl.le
    have hne : target (s.mem t (idx va 0)) ≠ frame := (hleafne hpage).2
    have hrefs : (cowCopied s s₁ t (idx va 0) frame).refs =
        Function.update (Function.update s.refs (target (s.mem t (idx va 0)))
          (s.refs (target (s.mem t (idx va 0))) - 1)) frame 1 := by
      change Function.update s₁.refs frame 1 = _
      rw [hrest]
      rfl
    have hpages : (cowCopied s s₁ t (idx va 0) frame).refsPages = s.refsPages := by
      change s₁.refsPages = _
      rw [hrest]
      rfl
    intro f hf
    rw [hpages] at hf
    rw [hrefs]
    by_cases hff : f = frame
    · subst hff
      have hzero : leafCount roots s.mem f = 0 :=
        leafCount_eq_zero fun r p h => happart r p h.reach
      rw [Function.update_self, hwrite.count_gain hpop.finite rfl fun h => happart _ _ h.reach,
        hzero]
      rfl
    · rw [Function.update_of_ne hff]
      have hnew : some frame ≠ some f := fun h => hff (some.inj h).symm
      by_cases hf₀ : f = target (s.mem t (idx va 0))
      · subst hf₀
        have hloss := hwrite.count_loss hpop.finite hnew hpage
        have hcount := hpop.refs _ hf
        have hlt : 1 < (s.refs (target (s.mem t (idx va 0)))).toNat := by
          simpa [BitVec.lt_def] using hshared
        have hle : 1 ≤ s.refs (target (s.mem t (idx va 0))) := by
          rw [BitVec.le_def]
          exact Nat.le_of_lt hlt
        have hone : (1 : BitVec 32).toNat = 1 := rfl
        rw [Function.update_self, BitVec.toNat_sub_of_le hle, hone]
        omega
      · rw [Function.update_of_ne hf₀, hpop.refs f hf]
        refine (hwrite.count_same hnew fun h => hf₀ ?_).symm
        exact some.inj (h.at_path.symm.trans hpage.at_path)

end Copy

section Handler

variable {roots : Set Nat} {s : Vm} {pml4Phys va errCode : Word} {t f : Nat} {i : Idx}

theorem allocFrame_eq_none (h : ∀ page, ¬ s.pmm.Free page) : allocFrame s = (none, s) := by
  have hnone : (allocFrame s).1 = none := (pmmAlloc_one_none_iff s.pmm).mpr h
  cases halloc : allocFrame s with
  | mk page s₁ =>
    rw [halloc] at hnone
    obtain rfl : page = none := hnone
    rw [allocFrame_none halloc]

theorem allocFrame_eq_some (h : ∃ page, s.pmm.Free page) :
    ∃ frame s₁, allocFrame s = (some frame, s₁) := by
  cases halloc : allocFrame s with
  | mk page s₁ =>
    cases page with
    | some frame => exact ⟨frame, s₁, rfl⟩
    | none =>
      obtain ⟨page, hp⟩ := h
      have hnone : (allocFrame s).1 = none := by rw [halloc]
      exact absurd hp ((pmmAlloc_one_none_iff s.pmm).mp hnone page)

theorem handleFault_stack (hz : pml4Phys ≠ 0) (hst : StackFault va errCode)
    (hres : pmapResolve s pml4Phys (va &&& ~~~0xFFF) = 0) :
    pmapHandleFault s pml4Phys va errCode =
      match allocFrame s with
      | (none, s) => (false, s)
      | (some frame, s) => (true, pmapMap (s.zeroFrame frame) pml4Phys (va &&& ~~~0xFFF)
          (physOf frame) (pteUser ||| pteWrite)) := by
  unfold pmapHandleFault
  rw [if_neg hz, if_pos hst.1, if_pos hst.2]
  simp only
  exact if_neg (not_not.mpr hres)

theorem handleFault_cow (hz : pml4Phys ≠ 0) (hcow : CowFault s pml4Phys va errCode t i) :
    pmapHandleFault s pml4Phys va errCode =
      if refValid s (s.mem t i &&& pteAddrMask) ∧ 1 < s.refs (target (s.mem t i)) then
        match allocFrame (cowLowered s (target (s.mem t i))) with
        | (none, s₁) => (false, s₁)
        | (some frame, s₁) => (true, cowCopied s s₁ t i frame)
      else (true, s.setEntry t i (ownedWord (s.mem t i))) := by
  obtain ⟨hp, hw, hpte, hbit⟩ := hcow
  unfold pmapHandleFault
  rw [if_neg hz, if_neg hp, if_pos hw, hpte]
  simp only
  rw [if_neg hbit]
  rfl

/-- Outside these two cases the fault is refused and nothing is changed. -/
theorem handleFault_other
    (hst : ¬ (StackFault va errCode ∧ pmapResolve s pml4Phys (va &&& ~~~0xFFF) = 0))
    (hcow : ∀ t i, ¬ CowFault s pml4Phys va errCode t i) :
    pmapHandleFault s pml4Phys va errCode = (false, s) := by
  unfold pmapHandleFault
  by_cases hz : pml4Phys = 0
  · rw [if_pos hz]
  rw [if_neg hz]
  by_cases hp : errCode &&& 1 = 0
  · rw [if_pos hp]
    by_cases hwin : errCode &&& 4 ≠ 0 ∧ va < userStackTopVa ∧
        userStackTopVa - userStackMaxSize ≤ va
    · rw [if_pos hwin]
      simp only
      rw [if_pos fun hres => hst ⟨⟨hp, hwin⟩, hres⟩]
    · rw [if_neg hwin]
  · rw [if_neg hp]
    by_cases hw : errCode &&& 2 ≠ 0
    · rw [if_pos hw]
      cases hpte : pmapPte s pml4Phys va with
      | none => rfl
      | some ti =>
        obtain ⟨t, i⟩ := ti
        simp only
        rw [if_pos]
        by_contra hbit
        exact hcow t i ⟨hp, hw, hpte, hbit⟩
    · rw [if_neg hw]

theorem FaultContract.of_refused (h : pmapHandleFault s pml4Phys va errCode = (false, s)) :
    FaultContract roots s pml4Phys va errCode := by
  refine ⟨fun hr => ?_, fun _ => ?_⟩
  · rw [h] at hr
    cases hr
  · rw [h]
    exact ⟨rfl, rfl, rfl⟩

/-- A stack that grows breaks the contract: the new page is not counted, and
without memory for its tables it is not even mapped. -/
theorem not_faultContract_stack (hpop : Population roots s) (hr : frameOf pml4Phys ∈ roots)
    (hz : pml4Phys ≠ 0) (hst : StackFault va errCode)
    (hres : pmapResolve s pml4Phys (va &&& ~~~0xFFF) = 0) (hfree : ∃ page, s.pmm.Free page) :
    ¬ FaultContract roots s pml4Phys va errCode := by
  intro hc
  obtain ⟨frame, s₁, halloc⟩ := allocFrame_eq_some hfree
  have hhandle := handleFault_stack hz hst hres
  rw [halloc] at hhandle
  obtain ⟨hacc, -, -, hexact⟩ := hc.resolved (by rw [hhandle])
  simp only [hhandle] at hacc hexact
  obtain ⟨hfr, -, -, hrest⟩ := allocFrame_some halloc
  have hua := userVa_aligned hst.userVa
  have hext : Extends roots s (s₁.zeroFrame frame) :=
    extends_alloc hpop.separated hpop.freeApart halloc _
  have hflags : (pteUser ||| pteWrite) &&& pteAddrMask = 0 := by decide
  cases hw : (mapWalk (s₁.zeroFrame frame) pml4Phys (va &&& ~~~0xFFF)
      (pteUser ||| pteWrite)).1 with
  | none =>
    obtain ⟨t, i, hpte, hpres, -⟩ := hacc
    simp only [pmapMap_of_none hw] at hpte hpres
    obtain ⟨ht, rfl⟩ := pmapPte_eq_some.mp hpte
    have hext' := (mapWalk_spec hflags hext.separated hext.freeApart hr hua).1
    have hpage := node_pagePath ht
    rw [child_eq_some hpres, ← pagePath_aligned va,
      hext'.pages _ hr _ (admissible_pagePath hua) (pagePath_length _),
      pagePath, node_concat] at hpage
    -- The page is present only below tables that are all present already.
    obtain ⟨t', ht', -⟩ := bind_eq_some_iff.mp hpage
    rw [show mapWalk (s₁.zeroFrame frame) pml4Phys (va &&& ~~~0xFFF) (pteUser ||| pteWrite) =
      _ from pmapMapWalk_of_node 3 ht'] at hw
    cases hw
  | some t =>
    have hleaf := (leaf_pmapMap (physOf frame) hflags hext.separated hext.freeApart hr hua hw
      (pagePath (va &&& ~~~0xFFF)) frame).mpr
        (Or.inl ⟨rfl, rfl, (target_physOf (hpop.freeApart.page_lt hfr)).symm⟩)
    have hctl := pmapMap_ctl (s₁.zeroFrame frame) pml4Phys (va &&& ~~~0xFFF) (physOf frame)
      (pteUser ||| pteWrite)
    have hctl' : (s₁.zeroFrame frame).ctl = s.ctl := by rw [hrest]; rfl
    have hrefs : (pmapMap (s₁.zeroFrame frame) pml4Phys (va &&& ~~~0xFFF) (physOf frame)
        (pteUser ||| pteWrite)).refs = s.refs := congrArg Prod.fst (hctl.trans hctl')
    have hpages : (pmapMap (s₁.zeroFrame frame) pml4Phys (va &&& ~~~0xFFF) (physOf frame)
        (pteUser ||| pteWrite)).refsPages = s.refsPages :=
      congrArg (fun c => c.2.1) (hctl.trans hctl')
    have hcount := hexact frame (by rw [hpages]; exact hpop.covered frame hfr)
    have hzero : leafCount roots s.mem frame = 0 :=
      leafCount_eq_zero fun r p h => hpop.freeApart.apart frame hfr r p h.reach
    have hold := hpop.refs frame (hpop.covered frame hfr)
    have hpos := leafCount_pos hpop.finite hleaf
    rw [hrefs, hold, hzero] at hcount
    omega

/-- Lowering the count of a shared page shows. -/
theorem cowLowered_toNat (h : 1 < s.refs f) :
    (cowLowered s f).refs f = s.refs f - 1 ∧ (s.refs f - 1).toNat + 1 = (s.refs f).toNat := by
  have hone : (1 : BitVec 32).toNat = 1 := rfl
  rw [BitVec.lt_def, hone] at h
  have hle : 1 ≤ s.refs f := by
    rw [BitVec.le_def, hone]
    omega
  refine ⟨Function.update_self _ _ _, ?_⟩
  rw [BitVec.toNat_sub_of_le hle, hone]
  omega

/-- Copying the page of an entry that is not present takes a count from a
frame that keeps all its leaf entries. -/
theorem not_refsExact_absent (hpop : Population roots s) (hr : frameOf pml4Phys ∈ roots)
    (hva : UserVa va) (ht : node child s.mem (frameOf pml4Phys) (tablePath va 3) = some t)
    (hpres : s.mem t (idx va 0) &&& ptePresent = 0)
    (hvalid : target (s.mem t (idx va 0)) < s.refsPages)
    (hshared : 1 < s.refs (target (s.mem t (idx va 0)))) {frame : Nat} {s₁ : Vm}
    (halloc : allocFrame (cowLowered s (target (s.mem t (idx va 0)))) = (some frame, s₁)) :
    ¬ RefsExact roots (cowCopied s s₁ t (idx va 0) frame) := by
  intro hexact
  obtain ⟨hfr, -, -, hrest⟩ := allocFrame_some halloc
  have hwrite : LeafWrite roots s.mem (cowCopied s s₁ t (idx va 0) frame).mem
      (frameOf pml4Phys, pagePath va) (some frame) :=
    LeafWrite.of_node hr (admissible_pagePath hva) (pagePath_length va)
      fun r hr' p ha hl => node_cowCopied hpop hr hva ht halloc hr' ha hl.le
  have hcount := hpop.refs _ hvalid
  obtain ⟨hlow, hsucc⟩ := cowLowered_toNat hshared
  -- A free frame has no leaf entry, so its count is not above one.
  have hne : target (s.mem t (idx va 0)) ≠ frame := by
    rintro heq
    have hzero : leafCount roots s.mem (target (s.mem t (idx va 0))) = 0 :=
      leafCount_eq_zero fun r p h => hpop.freeApart.apart frame hfr r p (heq ▸ h.reach)
    omega
  have hsame := hwrite.count_same (f := target (s.mem t (idx va 0)))
    (fun h => hne (some.inj h).symm) fun h => by
      have hn := h.at_path
      rw [userFormat_child, node_pagePath ht, child_eq_none.mpr hpres] at hn
      cases hn
  have hrefs : (cowCopied s s₁ t (idx va 0) frame).refs (target (s.mem t (idx va 0))) =
      s.refs (target (s.mem t (idx va 0))) - 1 := by
    change Function.update s₁.refs frame 1 _ = _
    rw [Function.update_of_ne hne, hrest]
    exact hlow
  have hpages : (cowCopied s s₁ t (idx va 0) frame).refsPages = s.refsPages := by
    change s₁.refsPages = _
    rw [hrest]
    rfl
  have hnew := hexact _ (hpages ▸ hvalid)
  rw [hrefs, hsame] at hnew
  omega

/-- Taking sole ownership of a page whose entry is not present does not make
the page accessible. -/
theorem not_accessible_setOwned (hsep : Separated userFormat roots s.mem)
    (hr : frameOf pml4Phys ∈ roots) (hva : UserVa va)
    (ht : node child s.mem (frameOf pml4Phys) (tablePath va 3) = some t)
    (hpres : s.mem t (idx va 0) &&& ptePresent = 0) (write : Prop) :
    ¬ Accessible (s.setEntry t (idx va 0) (ownedWord (s.mem t (idx va 0)))) pml4Phys va
      write := by
  rintro ⟨t', i', hpte, hp, -⟩
  obtain ⟨ht', rfl⟩ := pmapPte_eq_some.mp hpte
  rw [node_setOwned hsep hr hva ht hr (admissible_pagePath hva).init
    ((tablePath_length va 3).le.trans (by decide)), ht] at ht'
  cases ht'
  have hword : (s.setEntry t (idx va 0) (ownedWord (s.mem t (idx va 0)))).mem t (idx va 0) =
      ownedWord (s.mem t (idx va 0)) := setCell_same _ _ _ _
  rw [hword, ownedWord_and _ _ (by decide) (by decide)] at hp
  exact hp hpres

/-- A copy-on-write fault keeps the contract exactly when its entry is present
and a frame is left for a page that is shared. -/
theorem faultContract_cow_iff (hpop : Population roots s) (hr : frameOf pml4Phys ∈ roots)
    (hz : pml4Phys ≠ 0) (hcow : CowFault s pml4Phys va errCode t i) :
    FaultContract roots s pml4Phys va errCode ↔
      ¬ (s.mem t i &&& ptePresent = 0 ∨
        refValid s (s.mem t i &&& pteAddrMask) ∧ 1 < s.refs (target (s.mem t i)) ∧
          ∀ page, ¬ s.pmm.Free page) := by
  have hva : UserVa va := by
    by_contra hk
    exact hcow.2.2.2 (hpop.kernel pml4Phys va t i hr hk hcow.2.2.1)
  have hhandle := handleFault_cow hz hcow
  obtain ⟨ht, rfl⟩ := pmapPte_eq_some.mp hcow.2.2.1
  by_cases hshared : refValid s (s.mem t (idx va 0) &&& pteAddrMask) ∧
      1 < s.refs (target (s.mem t (idx va 0)))
  · rw [if_pos hshared] at hhandle
    by_cases hfree : ∃ page, s.pmm.Free page
    · obtain ⟨frame, s₁, halloc⟩ :=
        @allocFrame_eq_some (cowLowered s (target (s.mem t (idx va 0)))) hfree
      rw [halloc] at hhandle
      have hiff : ¬ (s.mem t (idx va 0) &&& ptePresent = 0 ∨
          refValid s (s.mem t (idx va 0) &&& pteAddrMask) ∧
            1 < s.refs (target (s.mem t (idx va 0))) ∧ ∀ page, ¬ s.pmm.Free page) ↔
          s.mem t (idx va 0) &&& ptePresent ≠ 0 :=
        ⟨fun h hp => h (Or.inl hp), fun h hbad => hbad.elim h fun hb =>
          hfree.elim fun page hp => hb.2.2 page hp⟩
      rw [hiff]
      constructor
      · intro hc hpres
        have hexact := (hc.resolved (by rw [hhandle])).2.2.2
        simp only [hhandle] at hexact
        exact not_refsExact_absent hpop hr hva ht hpres hshared.1 hshared.2 halloc hexact
      · intro hpres
        obtain ⟨⟨t', i', hpte, hp, hw⟩, hview, hothers, hexact⟩ :=
          cowCopied_resolves hpop hr hva ht hpres hshared.1 hshared.2 halloc
        refine ⟨fun _ => ?_, fun h => ?_⟩
        · simp only [hhandle]
          rw [if_neg hcow.1]
          exact ⟨⟨t', i', hpte, hp, fun _ => hw trivial⟩, hview, hothers, hexact⟩
        · rw [hhandle] at h
          cases h
    · have hnone := @allocFrame_eq_none (cowLowered s (target (s.mem t (idx va 0))))
        (fun page hp => hfree ⟨page, hp⟩)
      rw [hnone] at hhandle
      have hbad : refValid s (s.mem t (idx va 0) &&& pteAddrMask) ∧
          1 < s.refs (target (s.mem t (idx va 0))) ∧ ∀ page, ¬ s.pmm.Free page :=
        ⟨hshared.1, hshared.2, fun page hp => hfree ⟨page, hp⟩⟩
      refine ⟨fun hc => ?_, fun hok => absurd (Or.inr hbad) hok⟩
      have hrefs := (hc.refused (by rw [hhandle])).2.1
      simp only [hhandle] at hrefs
      obtain ⟨hlow, hsucc⟩ := cowLowered_toNat hshared.2
      rw [hrefs] at hlow
      rw [← hlow] at hsucc
      omega
  · rw [if_neg hshared] at hhandle
    have hiff : ¬ (s.mem t (idx va 0) &&& ptePresent = 0 ∨
        refValid s (s.mem t (idx va 0) &&& pteAddrMask) ∧
          1 < s.refs (target (s.mem t (idx va 0))) ∧ ∀ page, ¬ s.pmm.Free page) ↔
        s.mem t (idx va 0) &&& ptePresent ≠ 0 :=
      ⟨fun h hp => h (Or.inl hp), fun h hbad => hbad.elim h fun hb => hshared ⟨hb.1, hb.2.1⟩⟩
    rw [hiff]
    constructor
    · intro hc hpres
      have hacc := (hc.resolved (by rw [hhandle])).1
      simp only [hhandle] at hacc
      exact not_accessible_setOwned hpop.separated hr hva ht hpres _ hacc
    · intro hpres
      refine ⟨fun _ => ?_, fun h => ?_⟩
      · simp only [hhandle]
        rw [if_neg hcow.1]
        refine ⟨?_, ?_, ?_, refsExact_setOwned hpop hr hva ht⟩
        · refine accessible_setLeaf hpop.separated hr hva ht ?_ (ownedWord_pteWrite _) _
          rw [ownedWord_and _ _ (by decide) (by decide)]
          exact hpres
        · exact pageView_setOwned hpop.separated hr hva ht hr (admissible_pagePath hva)
            (pagePath_length va)
        · exact fun r hr' p ha hl _ => pageView_setOwned hpop.separated hr hva ht hr' ha hl
      · rw [hhandle] at h
        cases h

/-- `pmap_handle_fault` keeps its contract for every population with exact
counts exactly outside the breaking cases. -/
theorem faultContract_iff (hpop : Population roots s)
    (hcur : pml4Phys ≠ 0 → frameOf pml4Phys ∈ roots) :
    FaultContract roots s pml4Phys va errCode ↔ ¬ FaultBreaks s pml4Phys va errCode := by
  by_cases hz : pml4Phys = 0
  · have hrefused : pmapHandleFault s pml4Phys va errCode = (false, s) := by
      unfold pmapHandleFault
      rw [if_pos hz]
    exact ⟨fun _ hb => hb.1 hz, fun _ => FaultContract.of_refused hrefused⟩
  have hr := hcur hz
  by_cases hcow : ∃ t i, CowFault s pml4Phys va errCode t i
  · obtain ⟨t, i, hcow⟩ := hcow
    rw [faultContract_cow_iff hpop hr hz hcow, not_iff_not]
    constructor
    · exact fun h => ⟨hz, Or.inr ⟨t, i, hcow, h⟩⟩
    · rintro ⟨-, ⟨hst, -⟩ | ⟨t', i', hcow', h⟩⟩
      · exact absurd hst.1 hcow.1
      · obtain ⟨rfl, rfl⟩ :=
          Prod.mk.inj (Option.some.inj (hcow.2.2.1.symm.trans hcow'.2.2.1))
        exact h
  · have hnocow : ∀ t i, ¬ CowFault s pml4Phys va errCode t i := fun t i h => hcow ⟨t, i, h⟩
    by_cases hst : StackFault va errCode ∧ pmapResolve s pml4Phys (va &&& ~~~0xFFF) = 0
    · by_cases hfree : ∃ page, s.pmm.Free page
      · refine iff_of_false (not_faultContract_stack hpop hr hz hst.1 hst.2 hfree) ?_
        exact fun h => h ⟨hz, Or.inl ⟨hst.1, hst.2, hfree⟩⟩
      · have hrefused : pmapHandleFault s pml4Phys va errCode = (false, s) := by
          rw [handleFault_stack hz hst.1 hst.2,
            allocFrame_eq_none fun page hp => hfree ⟨page, hp⟩]
        refine iff_of_true (FaultContract.of_refused hrefused) ?_
        rintro ⟨-, ⟨-, -, hf⟩ | ⟨t, i, hc, -⟩⟩
        · exact hfree hf
        · exact hnocow t i hc
    · refine iff_of_true (FaultContract.of_refused (handleFault_other hst hnocow)) ?_
      rintro ⟨-, ⟨h₁, h₂, -⟩ | ⟨t, i, hc, -⟩⟩
      · exact hst ⟨h₁, h₂⟩
      · exact hnocow t i hc

end Handler

section Example

theorem emptySpace_pmapPte {pml4Phys va : Word} : pmapPte emptySpace pml4Phys va = none := by
  unfold pmapPte
  rw [pmapPteWalk_eq, tablePath, emptySpace_node]
  rfl

theorem emptySpace_population : Population {frameOf 0x1000} emptySpace where
  finite := Set.finite_singleton _
  separated := emptySpace_wellFormed
  freeApart := emptySpace_allocApart
  refs := by
    intro f _
    refine (leafCount_eq_zero fun r p h => ?_).symm
    have hlen := h.length_eq
    rw [(emptySpace_reach h.reach).2.1] at hlen
    cases hlen
  covered := fun _ hp => hp.1
  kernel := by
    intro pml4Phys va t i _ _ hpte
    rw [emptySpace_pmapPte] at hpte
    cases hpte

theorem emptySpace_stackFault : StackFault 0x6FFFF000 6 :=
  ⟨by decide, by decide, by decide, by decide⟩

/-- A read of a present page is refused as promised; a write below the stack is
resolved but not as promised. -/
theorem faultContract_iff_empty :
    FaultContract {frameOf 0x1000} emptySpace 0x1000 0x6FFFF000 5 ∧
      ¬ FaultContract {frameOf 0x1000} emptySpace 0x1000 0x6FFFF000 6 := by
  constructor
  · refine (faultContract_iff emptySpace_population fun _ => rfl).mpr ?_
    rintro ⟨-, ⟨hst, -⟩ | ⟨t, i, hcow, -⟩⟩
    · exact absurd hst.1 (by decide)
    · exact absurd hcow.2.1 (by decide)
  · rw [faultContract_iff emptySpace_population fun _ => rfl, not_not]
    exact ⟨by decide, Or.inl ⟨emptySpace_stackFault, by decide, 2, by decide, by decide⟩⟩

/-- Growing the stack of the empty address space returns true and leaves the
new page uncounted. -/
theorem stack_growth_breaks_contract :
    Population {frameOf 0x1000} emptySpace ∧
      (pmapHandleFault emptySpace 0x1000 0x6FFFF000 6).1 = true ∧
      ¬ FaultContract {frameOf 0x1000} emptySpace 0x1000 0x6FFFF000 6 :=
  ⟨emptySpace_population, by decide,
    not_faultContract_stack emptySpace_population rfl (by decide) emptySpace_stackFault
      (by decide) ⟨2, by decide, by decide⟩⟩

end Example

end Mmix.Mm
