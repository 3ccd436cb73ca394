import Mmix.Mm.Growth

/-!
# Building an address space and taking it apart

`pmap_destroy` frees each frame of the tree once. Applied to an address space
that grew from a first state, it brings the allocator and the reference counts
back to that state.
-/

namespace Mmix.Mm

open Forest List

/-- The pages of `D` have been freed and the counts of those in `C` are zero. -/
structure GivesBack (D C : Set Nat) (s s' : Vm) : Prop where
  bits : ∀ f, s'.pmm.bitmap f = true ↔ s.pmm.bitmap f = true ∧ f ∉ D
  total : s'.pmm.totalPages = s.pmm.totalPages
  excess : s'.pmm.excess = s.pmm.excess
  zero : ∀ f ∈ C, s'.refs f = 0
  refs : ∀ f, f ∉ C → s'.refs f = s.refs f
  refsPages : s'.refsPages = s.refsPages

namespace GivesBack

variable {D D' C C' : Set Nat} {s s' s'' : Vm} {f : Nat}

theorem refl (s : Vm) : GivesBack ∅ ∅ s s where
  bits := fun _ => by simp
  total := rfl
  excess := rfl
  zero := fun _ h => by cases h
  refs := fun _ _ => rfl
  refsPages := rfl

theorem trans (h : GivesBack D C s s') (h' : GivesBack D' C' s' s'') :
    GivesBack (D ∪ D') (C ∪ C') s s'' where
  bits := by
    intro f
    rw [h'.bits, h.bits, Set.mem_union, not_or, and_assoc]
  total := h'.total.trans h.total
  excess := h'.excess.trans h.excess
  zero := by
    intro f hf
    by_cases hC : f ∈ C'
    · exact h'.zero f hC
    · rw [h'.refs f hC]
      exact h.zero f (hf.resolve_right hC)
  refs := by
    intro f hf
    rw [Set.mem_union, not_or] at hf
    exact (h'.refs f hf.2).trans (h.refs f hf.1)
  refsPages := h'.refsPages.trans h.refsPages

/-- Freeing a page in use. -/
theorem freeFrame (hf : f < s.pmm.totalPages) : GivesBack {f} ∅ s (freeFrame s f) where
  bits := by
    intro g
    change (pmmFree f 1 s.pmm).bitmap g = true ↔ _
    rw [pmmFree_one, Set.mem_singleton_iff]
    by_cases hg : g = f
    · simp [hg]
    · rw [Function.update_of_ne hg]
      simp [hg]
  total := (pmmFree_frame f 1 s.pmm).1
  excess := Pmm.excess_free fun p hp hp' => by omega
  zero := fun _ h => by cases h
  refs := fun _ _ => rfl
  refsPages := rfl

/-- Dropping the only reference to a page, counted or not. -/
theorem destroyLeaf (hlt : f < 2 ^ 40) (hf : f < s.pmm.totalPages) (hv : f < s.refsPages)
    (hone : s.refs f = 0 ∨ s.refs f = 1) : GivesBack {f} {f} s (destroyLeaf s (physOf f)) := by
  have hdec : ∃ s₁ : Vm, frameRefDec s (physOf f) = (true, s₁) ∧ s₁.pmm = s.pmm ∧
      s₁.refs f = 0 ∧ (∀ g, g ≠ f → s₁.refs g = s.refs g) ∧ s₁.refsPages = s.refsPages := by
    have hvalid : refValid s (physOf f) := by
      unfold refValid
      rwa [frameOf_physOf hlt]
    unfold frameRefDec
    rw [if_pos hvalid, frameOf_physOf hlt]
    rcases hone with h0 | h1
    · refine ⟨s, ?_, rfl, h0, fun _ _ => rfl, rfl⟩
      simp [h0]
    · refine ⟨{ s with refs := Function.update s.refs f 0 }, ?_, rfl, Function.update_self _ _ _,
        fun g hg => Function.update_of_ne hg _ _, rfl⟩
      simp [h1]
  obtain ⟨s₁, hdec, hpmm, hzero, hrefs, hpages⟩ := hdec
  have hfree := freeFrame (s := s₁) (hpmm ▸ hf)
  unfold Mm.destroyLeaf
  rw [hdec, frameOf_physOf hlt]
  exact
    { bits := hpmm ▸ hfree.bits
      total := hpmm ▸ hfree.total
      excess := hpmm ▸ hfree.excess
      zero := fun g hg => by
        obtain rfl : g = f := hg
        exact hzero
      refs := hrefs
      refsPages := hpages }

/-- Giving back a list of distinct frames. -/
theorem foldl {xs : List (List Idx × Nat)}
    (hx : ∀ x ∈ xs, x.2 < 2 ^ 40 ∧ x.2 < s.pmm.totalPages ∧
      (x.1.length = 4 → x.2 < s.refsPages ∧ (s.refs x.2 = 0 ∨ s.refs x.2 = 1))) :
    GivesBack {f | ∃ x ∈ xs, x.2 = f} {f | ∃ x ∈ xs, x.1.length = 4 ∧ x.2 = f} s
      (xs.foldl (giveBack 3) s) := by
  induction xs generalizing s with
  | nil =>
    rw [foldl_nil]
    convert GivesBack.refl s using 1
    · simp
    · simp
  | cons x xs ih =>
    obtain ⟨hlt, hin, hleaf⟩ := hx x mem_cons_self
    have hone : GivesBack {x.2} {f | x.1.length = 4 ∧ x.2 = f} s (giveBack 3 s x) := by
      unfold giveBack
      by_cases hl : x.1.length = 4
      · rw [if_pos hl]
        convert destroyLeaf hlt hin (hleaf hl).1 (hleaf hl).2 using 1
        ext f
        simp [hl, eq_comm]
      · rw [if_neg hl]
        convert freeFrame hin using 1
        ext f
        simp [hl]
    have hrest := ih (s := giveBack 3 s x) fun y hy => by
      obtain ⟨hlt', hin', hleaf'⟩ := hx y (mem_cons_of_mem x hy)
      refine ⟨hlt', hone.total ▸ hin', fun hl => ⟨hone.refsPages ▸ (hleaf' hl).1, ?_⟩⟩
      by_cases hC : y.2 ∈ {f | x.1.length = 4 ∧ x.2 = f}
      · exact Or.inl (hone.zero y.2 hC)
      · rw [hone.refs y.2 hC]
        exact (hleaf' hl).2
    rw [foldl_cons]
    convert hone.trans hrest using 1
    · ext f
      simp [eq_comm]
    · ext f
      simp

end GivesBack

/-- The frames that `pmap_destroy` gives back, in its order. -/
def destroyed (s : Vm) (pml4Phys : Word) : List Nat :=
  (visited s.mem 3 (frameOf pml4Phys) userEntries).map Prod.snd ++ [frameOf pml4Phys]

theorem mem_destroyed {s : Vm} {pml4Phys : Word} {f : Nat} :
    f ∈ destroyed s pml4Phys ↔ InTree (frameOf pml4Phys) s f := by
  unfold destroyed
  rw [mem_append, mem_singleton, mem_map]
  constructor
  · rintro (⟨⟨p, g⟩, hx, rfl⟩ | rfl)
    · exact ⟨p, ((mem_visited (Set.mem_singleton _)).mp hx).2⟩
    · exact ⟨[], reach_root _ s⟩
  · rintro ⟨p, hp⟩
    cases p with
    | nil => exact Or.inr (Option.some.inj hp.at_path).symm
    | cons i p => exact Or.inl ⟨(i :: p, f),
        (mem_visited (Set.mem_singleton _)).mpr ⟨cons_ne_nil i p, hp⟩, rfl⟩

namespace Grown

variable {s₀ s : Vm} {r f : Nat} {L : Set Nat} {pml4Phys : Word}

/-- A frame of the tree has one path. -/
theorem path_unique (h : Grown s₀ r L s) {p p' : List Idx}
    (hp : Reach userFormat {r} s.mem 4 r p f) (hp' : Reach userFormat {r} s.mem 4 r p' f) :
    p = p' := by
  rcases hp.table_or_leaf with ht | hl
  · rcases hp'.table_or_leaf with ht' | hl'
    · exact (h.separated.table_unique ht ht').2
    · exact absurd hl' (h.separated.leaf_ne_table ht)
  · rcases hp'.table_or_leaf with ht' | hl'
    · exact absurd hl (h.separated.leaf_ne_table ht')
    · exact h.single hl hl'

/-- No frame is given back twice. -/
theorem nodup_destroyed (h : Grown s₀ r L s) (hr : frameOf pml4Phys = r) :
    (destroyed s pml4Phys).Nodup := by
  subst hr
  have hvisited {x : List Idx × Nat}
      (hx : x ∈ visited s.mem 3 (frameOf pml4Phys) userEntries) :
      x.1 ≠ [] ∧ Reach userFormat {frameOf pml4Phys} s.mem 4 (frameOf pml4Phys) x.1 x.2 :=
    (mem_visited (Set.mem_singleton _)).mp hx
  have hentries : userEntries.Nodup := (nodup_finRange 512).filter _
  refine nodup_append.mpr ⟨?_, nodup_singleton _, ?_⟩
  · refine List.Nodup.map_on (fun x hx y hy hxy => ?_)
      (List.Nodup.of_map Prod.fst (nodup_postorder (nodup_finRange 512) hentries))
    have hy' := (hvisited hy).2
    rw [← hxy] at hy'
    exact Prod.ext (h.path_unique (hvisited hx).2 hy') hxy
  · rintro g hg g' hg' rfl
    obtain ⟨x, hx, hxg⟩ := mem_map.mp hg
    rw [mem_singleton.mp hg'] at hxg
    have hx' := (hvisited hx).2
    rw [hxg] at hx'
    exact (hvisited hx).1 (h.path_unique hx' (reach_root _ s))

/-- `pmap_destroy` frees the tree. -/
theorem givesBack (h : Grown s₀ r L s) (hr : frameOf pml4Phys = r)
    (hrefs : ∀ f, s₀.pmm.Free f → f < s₀.refsPages ∧ s₀.refs f = 0) :
    GivesBack {f | InTree r s f} {f | ∃ p, Leaf userFormat {r} s.mem r p f} s
      (pmapDestroy s pml4Phys) := by
  subst hr
  have hroot : InTree (frameOf pml4Phys) s (frameOf pml4Phys) :=
    ⟨[], reach_root _ s⟩
  have hin {g : Nat} (hg : InTree (frameOf pml4Phys) s g) : g < s.pmm.totalPages :=
    h.total ▸ (h.fresh g (Or.inr hg)).1
  have hfold := @GivesBack.foldl s (visited s.mem 3 (frameOf pml4Phys) userEntries) fun x hx => by
    obtain ⟨-, hx⟩ := (mem_visited (Set.mem_singleton _)).mp hx
    refine ⟨h.page_lt (Or.inr ⟨x.1, hx⟩), hin ⟨x.1, hx⟩, fun _ => ?_⟩
    obtain ⟨hpages, hzero⟩ := hrefs x.2 (h.fresh x.2 (Or.inr ⟨x.1, hx⟩))
    refine ⟨h.refsPages ▸ hpages, ?_⟩
    rcases h.refs x.2 with hr | hr
    · exact Or.inl (hr.trans hzero)
    · rw [hr.1, hzero]
      exact Or.inr rfl
  have hlast := GivesBack.freeFrame (hfold.total.symm ▸ hin hroot)
  rw [pmapDestroy_eq]
  convert hfold.trans hlast using 1
  · ext g
    have hmem := @mem_destroyed s pml4Phys g
    unfold destroyed at hmem
    rw [mem_append, mem_singleton, mem_map] at hmem
    exact hmem.symm
  · ext g
    rw [Set.union_empty]
    constructor
    · rintro ⟨p, hl⟩
      have hne : p ≠ [] := by
        rintro rfl
        exact absurd hl.length_eq (by decide)
      exact ⟨(p, g), (mem_visited (Set.mem_singleton _)).mpr ⟨hne, hl.reach⟩, hl.length_eq, rfl⟩
    · rintro ⟨x, hx, hlen, rfl⟩
      have hx := ((mem_visited (Set.mem_singleton _)).mp hx).2
      exact ⟨x.1, rfl, hx.admissible, hlen, hx.at_path⟩

/-- Only the loose pages stay taken. -/
theorem destroy (h : Grown s₀ r L s) (hr : frameOf pml4Phys = r)
    (hrefs : ∀ f, s₀.pmm.Free f → f < s₀.refsPages ∧ s₀.refs f = 0) :
    (∀ f, (pmapDestroy s pml4Phys).pmm.bitmap f = true ↔ s₀.pmm.bitmap f = true ∨ f ∈ L) ∧
      (∀ f, f ∉ L → (pmapDestroy s pml4Phys).refs f = s₀.refs f) ∧
      (pmapDestroy s pml4Phys).pmm.totalPages = s₀.pmm.totalPages ∧
      (pmapDestroy s pml4Phys).pmm.excess = s₀.pmm.excess := by
  have hback := h.givesBack hr hrefs
  refine ⟨fun f => ?_, fun f hf => ?_, hback.total.trans h.total, hback.excess.trans h.excess⟩
  · rw [hback.bits, h.taken]
    constructor
    · rintro ⟨hb | hb | hb, hnot⟩
      · exact Or.inl hb
      · exact Or.inr hb
      · exact absurd hb hnot
    · rintro (hb | hb)
      · refine ⟨Or.inl hb, fun hin => ?_⟩
        exact absurd (hb.symm.trans (h.fresh f (Or.inr hin)).2) (by decide)
      · exact ⟨Or.inr (Or.inl hb), h.loose f hb⟩
  · by_cases hl : f ∈ {f | ∃ p, Leaf userFormat {r} s.mem r p f}
    · obtain ⟨p, hp⟩ := hl
      rw [hback.zero f ⟨p, hp⟩, (hrefs f (h.fresh f (Or.inr ⟨p, hp.reach⟩))).2]
    · rw [hback.refs f hl]
      exact (h.refs f).resolve_right fun hc => hc.2.elim hf hl

end Grown

/-- The counter of a state is determined by its bits. -/
theorem Pmm.ext_of_excess {s s' : Pmm} (hbits : ∀ f, s'.bitmap f = true ↔ s.bitmap f = true)
    (htotal : s'.totalPages = s.totalPages) (hexcess : s'.excess = s.excess) : s' = s := by
  obtain ⟨bits, total, free⟩ := s
  obtain ⟨bits', total', free'⟩ := s'
  obtain rfl : bits' = bits := funext fun f => Bool.eq_iff_iff.mpr (hbits f)
  obtain rfl : total' = total := htotal
  have hfree : free' = free := by
    unfold Pmm.excess at hexcess
    have hsame : Pmm.freeSet ⟨bits', total', free'⟩ = Pmm.freeSet ⟨bits', total', free⟩ := rfl
    rw [hsame] at hexcess
    dsimp only at hexcess
    generalize BitVec.ofNat 64 _ = n at hexcess
    bv_omega
  rw [hfree]

/-- A page to be mapped: its address and flags, its content, and whether it is
counted as in `pmap_fork`. -/
structure MapStep where
  va : Word
  flags : Word
  row : Idx → Word
  counted : Bool

/-- A distinct page is a user page, and the flags are no part of an address. -/
structure MapStep.Valid (e : MapStep) : Prop where
  aligned : e.va &&& 0xFFF = 0
  user : e.va.toNat < 2 ^ 47
  flags : e.flags &&& pteAddrMask = 0

/-- `pmm_alloc(1)` and `pmap_map`, with all allocations succeeding. -/
def mapStep (pml4Phys : Word) (s : Vm) (e : MapStep) : Option Vm :=
  match allocFrame s with
  | (none, _) => none
  | (some frame, s) =>
    let s := s.setFrame frame e.row
    let s := if e.counted then frameRefInc s (physOf frame) else s
    if (mapWalk s pml4Phys e.va e.flags).1.isSome then
      some (pmapMap s pml4Phys e.va (physOf frame) e.flags)
    else none

section Build

variable {s₀ s s' : Vm} {r : Nat} {pml4Phys : Word}

/-- One step maps one more page. -/
theorem Grown.mapStep {e : MapStep} (h : Grown s₀ r ∅ s) (hr : frameOf pml4Phys = r)
    (he : e.Valid) (hout : ∀ f, ¬ Leaf userFormat {r} s.mem r (pagePath e.va) f)
    (hs : mapStep pml4Phys s e = some s') :
    Grown s₀ r ∅ s' ∧ ∀ {p f}, Leaf userFormat {r} s'.mem r p f →
      p = pagePath e.va ∨ Leaf userFormat {r} s.mem r p f := by
  unfold Mm.mapStep at hs
  cases halloc : allocFrame s with
  | mk page s₁ =>
    rw [halloc] at hs
    cases page with
    | none => cases hs
    | some frame =>
      dsimp only at hs
      have h₁ := h.alloc halloc e.row
      have hext := extends_alloc h.separated h.freeApart halloc e.row
      have hrefs₁ : (s₁.setFrame frame e.row).refs frame = s₀.refs frame := by
        rw [hext.rest]
        exact h.refs_of_free (allocFrame_some halloc).1
      obtain ⟨s₂, hs₂, hmem, h₂⟩ : ∃ s₂, (if e.counted then
          frameRefInc (s₁.setFrame frame e.row) (physOf frame)
          else s₁.setFrame frame e.row) = s₂ ∧ s₂.mem = (s₁.setFrame frame e.row).mem ∧
          Grown s₀ r (insert frame ∅) s₂ := by
        refine ⟨_, rfl, ?_, ?_⟩
        · split
          · exact frameRefInc_mem _ _
          · rfl
        · split
          · exact h₁.refInc (Set.mem_insert _ _) hrefs₁
          · exact h₁
      rw [hs₂] at hs
      split at hs
      next hw =>
        obtain ⟨t, ht⟩ := Option.isSome_iff_exists.mp hw
        cases hs
        have huser := userVa_of_lt he.user
        have hnone : node child s₂.mem r (pagePath e.va) = none := by
          cases hn : node child s₂.mem r (pagePath e.va) with
          | none => rfl
          | some f =>
            rw [hmem] at hn
            exact absurd (hext.leaf_iff.mp ⟨rfl, admissible_pagePath huser, pagePath_length _, hn⟩)
              (hout f)
        have hmap := h₂.map hr he.flags huser ht (Set.mem_insert _ _) hnone
        refine ⟨by simpa using hmap, fun {p f} hl => ?_⟩
        rcases (h₂.leaf_map hr he.flags huser ht (Set.mem_insert _ _) hnone).mp hl with
          ⟨hp, -⟩ | hl
        · exact Or.inl hp
        · rw [hmem] at hl
          exact Or.inr (hext.leaf_iff.mp hl)
      next => cases hs

/-- Mapping pages at distinct addresses. -/
theorem Grown.mapSteps {steps : List MapStep} (h : Grown s₀ r ∅ s) (hr : frameOf pml4Phys = r)
    (hvalid : ∀ e ∈ steps, e.Valid) (hdistinct : steps.Pairwise fun e e' => e.va ≠ e'.va)
    (hout : ∀ e ∈ steps, ∀ f, ¬ Leaf userFormat {r} s.mem r (pagePath e.va) f)
    (hrun : Run.run (Mm.mapStep pml4Phys) s steps = some s') : Grown s₀ r ∅ s' := by
  induction steps generalizing s with
  | nil =>
    cases hrun
    exact h
  | cons e steps ih =>
    obtain ⟨s₁, hstep, hrest⟩ := Run.run_cons hrun
    obtain ⟨hne, hdistinct⟩ := pairwise_cons.mp hdistinct
    have he := hvalid e mem_cons_self
    obtain ⟨h₁, hleaf⟩ := h.mapStep hr he (hout e mem_cons_self) hstep
    refine ih h₁ (fun e' he' => hvalid e' (mem_cons_of_mem e he')) hdistinct ?_ hrest
    intro e' he' f hl
    have hv' := hvalid e' (mem_cons_of_mem e he')
    rcases hleaf hl with hp | hl
    · -- Aligned addresses on one path are equal.
      have hu := he.user
      have hu' := hv'.user
      have hpage := (pagePath_eq_iff (by omega) (by omega)).mp hp
      have ha := toNat_and_pageMask e.va
      have ha' := toNat_and_pageMask e'.va
      rw [he.aligned] at ha
      rw [hv'.aligned] at ha'
      refine hne e' he' (BitVec.eq_of_toNat_eq ?_)
      change 0 = _ at ha
      change 0 = _ at ha'
      omega
    · exact hout e' (mem_cons_of_mem e he') f hl

end Build

/-- An address space built from free pages and destroyed leaves the allocator
and the counts as they were: each of its frames was free before and is given
back once, and the kernel half stays in use. -/
theorem addressSpace_round_trip {s s₁ s₂ : Vm} {pml4 : Word} {steps : List MapStep}
    (htotal : s.pmm.totalPages ≤ 2 ^ 40)
    (hrefs : ∀ f, s.pmm.Free f → f < s.refsPages ∧ s.refs f = 0)
    (hcreate : pmapCreate s = (pml4, s₁)) (hpml4 : pml4 ≠ 0)
    (hvalid : ∀ e ∈ steps, e.Valid) (hdistinct : steps.Pairwise fun e e' => e.va ≠ e'.va)
    (hrun : Run.run (mapStep pml4) s₁ steps = some s₂) :
    (pmapDestroy s₂ pml4).pmm = s.pmm ∧ (pmapDestroy s₂ pml4).refs = s.refs ∧
      (destroyed s₂ pml4).Nodup ∧
      (∀ f, f ∈ destroyed s₂ pml4 ↔ s.pmm.Free f ∧ s₂.pmm.bitmap f = true) ∧
      (∀ f, f ∈ destroyed s₂ pml4 ↔
        ∃ p, Reach userFormat {frameOf pml4} s₂.mem 4 (frameOf pml4) p f) ∧
      ∀ (i : Idx) (p : List Idx) (f : Nat), 256 ≤ i.val →
        node child s₂.mem (frameOf pml4) (i :: p) = some f → s.pmm.bitmap f = true →
        f ∉ destroyed s₂ pml4 := by
  obtain ⟨page, hpage, hgrown, hempty⟩ := Grown.pmapCreate htotal hcreate hpml4
  have hout : ∀ e ∈ steps, ∀ f, ¬ Leaf userFormat {page} s₁.mem page (pagePath e.va) f := by
    intro e _ f hl
    have hlen := hl.length_eq
    rw [hempty hl.reach] at hlen
    cases hlen
  have h₂ : Grown s page ∅ s₂ := hgrown.mapSteps hpage hvalid hdistinct hout hrun
  obtain ⟨hbits, hcounts, htotal', hexcess⟩ := h₂.destroy hpage hrefs
  have hfree : ∀ f, f ∈ destroyed s₂ pml4 → s.pmm.Free f := fun f hf =>
    h₂.fresh f (Or.inr (hpage ▸ mem_destroyed.mp hf))
  refine ⟨Pmm.ext_of_excess (fun f => ?_) htotal' hexcess, funext fun f => hcounts f id,
    h₂.nodup_destroyed hpage, fun f => ?_, fun f => mem_destroyed, fun i p f _ _ hused hf => ?_⟩
  · rw [hbits f]
    exact or_iff_left id
  · constructor
    · intro hf
      exact ⟨hfree f hf, (h₂.taken f).mpr (Or.inr (Or.inr (hpage ▸ mem_destroyed.mp hf)))⟩
    · rintro ⟨hf, hused⟩
      rcases (h₂.taken f).mp hused with hb | hb | hb
      · exact absurd (hb.symm.trans hf.2) (by decide)
      · cases hb
      · exact mem_destroyed.mpr (hpage ▸ hb)
  · exact absurd (hused.symm.trans (hfree f hf).2) (by decide)

/-- Eight pages of which the first is in use, with a zero count each. -/
def eightPages : Vm where
  pmm := ⟨fun p => p == 0 || 8 ≤ p, 8, 7⟩
  mem := fun _ _ => 0
  refs := fun _ => 0
  refsPages := 8
  cr3 := 0
  kernelPml4 := 0
  usable := fun _ => true

/-- Two pages that share their tables, the second one counted. -/
def twoPages : List MapStep :=
  [⟨0x400000, pteUser, fun _ => 0, false⟩, ⟨0x401000, pteUser, fun _ => 7, true⟩]

theorem addressSpace_round_trip_twoPages : ∃ pml4 s₁ s₂, pmapCreate eightPages = (pml4, s₁) ∧
    Run.run (mapStep pml4) s₁ twoPages = some s₂ ∧ s₂.pmm.freePages = 1 ∧
    (pmapDestroy s₂ pml4).pmm = eightPages.pmm ∧ (destroyed s₂ pml4).Nodup := by
  obtain ⟨s₂, hrun, hfree⟩ : ∃ s₂, Run.run (mapStep (pmapCreate eightPages).1)
      (pmapCreate eightPages).2 twoPages = some s₂ ∧ s₂.pmm.freePages = 1 := by
    decide +kernel
  have hvalid : ∀ e ∈ twoPages, e.Valid := by
    intro e he
    simp only [twoPages, List.mem_cons, List.not_mem_nil, or_false] at he
    rcases he with rfl | rfl
    · exact ⟨by decide, by decide, by decide⟩
    · exact ⟨by decide, by decide, by decide⟩
  have hfinal := addressSpace_round_trip (s := eightPages) (by decide)
    (fun f hf => ⟨hf.1, rfl⟩) rfl (by decide) hvalid
    (List.pairwise_pair.mpr (by decide)) hrun
  exact ⟨_, _, s₂, rfl, hrun, hfree, hfinal.1, hfinal.2.2.1⟩

end Mmix.Mm
