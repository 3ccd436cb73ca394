import Mmix.Mm.Destroy
import Mmix.Mm.PmmRuns

/-!
# Growing an address space

An address space that is built from nothing takes all its frames from the free
pages. `Grown` accounts for every page taken since a first state: it is a table
or a mapped page of the one tree, or it is still loose. `pmap_create`,
`pmm_alloc` and `pmap_map` keep the account, also where the last one runs out
of pages, and `pmap_destroy` settles it.
-/

namespace Mmix.Mm

open Forest

section Walk

variable {roots : Set Nat} {va flags : Word} {r : Nat}

theorem allocFrame_excess (s : Vm) : (allocFrame s).2.pmm.excess = s.pmm.excess :=
  Pmm.excess_alloc (Nat.le_refl _) 1

theorem allocFrame_none_iff (s : Vm) :
    (∃ s', allocFrame s = (none, s')) ↔ ∀ page, ¬ s.pmm.Free page := by
  rw [← pmmAlloc_one_none_iff]
  exact ⟨fun ⟨_, h⟩ => congrArg Prod.fst h, fun h => ⟨_, Prod.ext h rfl⟩⟩

/-- The search is first-fit: a free page 0 is handed out first. -/
theorem allocFrame_first {s s₁ : Vm} {page : Nat} (h : allocFrame s = (some page, s₁))
    (hz : s.pmm.Free 0) : page = 0 := by
  obtain ⟨n, hn⟩ := Nat.exists_eq_add_of_le' hz.1
  have hscan : pmmScan s.pmm 1 s.pmm.totalPages 0 0 0 = some 0 := by
    rw [hn, pmmScan, Pmm.bitmapTest, if_pos hz.2]
    rfl
  have halloc : (allocFrame s).1 = some 0 := by
    simp only [allocFrame, pmmAlloc, pmmAllocBelow]
    rw [if_neg (by decide), hscan]
  rw [h] at halloc
  exact Option.some.inj halloc

/-- The pages taken by a descent are tables on its path. -/
structure Grows (roots : Set Nat) (r : Nat) (path : List Idx) (s s' : Vm) : Prop where
  used : ∀ f, s'.pmm.bitmap f = true →
    s.pmm.bitmap f = true ∨ ∃ p, Table userFormat roots s'.mem r p f
  on_path : ∀ {r' p f}, Table userFormat roots s'.mem r' p f →
    Table userFormat roots s.mem r' p f ∨ r' = r ∧ p <+: path
  excess : s'.pmm.excess = s.pmm.excess

theorem Grows.refl (roots : Set Nat) (r : Nat) (path : List Idx) (s : Vm) :
    Grows roots r path s s :=
  ⟨fun _ => Or.inl, Or.inl, rfl⟩

/-- A linked table followed by a descent below it. -/
theorem Grows.of_link {s s₁ s' : Vm} {table page : Nat} {q rest : List Idx} {i : Idx} {w : Word}
    (hsep : Separated userFormat roots s.mem) (hfree : FreeApart roots s)
    (ht : Table userFormat roots s.mem r q table) (habsent : child (s.mem table i) = none)
    (halloc : allocFrame s = (some page, s₁)) (hw : child w = some page)
    (hnew : Table userFormat roots s'.mem r (q ++ [i]) page)
    (h : Grows roots r ((q ++ [i]) ++ rest) ((s₁.zeroFrame page).setEntry table i w) s') :
    Grows roots r ((q ++ [i]) ++ rest) s s' where
  used := by
    intro f hf
    rcases h.used f hf with hf | ht
    · have hbit : Function.update s.pmm.bitmap page true f = true :=
        (allocFrame_some halloc).2.2.1 ▸ hf
      by_cases hfp : f = page
      · exact Or.inr ⟨q ++ [i], hfp ▸ hnew⟩
      · rw [Function.update_of_ne hfp] at hbit
        exact Or.inl hbit
    · exact Or.inr ht
  on_path := by
    intro r' p f htab
    rcases h.on_path htab with htab | hpath
    · have hn := node_link hsep hfree ht habsent halloc hw htab.mem_roots htab.admissible
        (htab.length_le.trans (by decide))
      by_cases hc : r' = r ∧ p = q ++ [i]
      · exact Or.inr ⟨hc.1, hc.2 ▸ List.prefix_append _ _⟩
      · rw [if_neg hc] at hn
        exact Or.inl ⟨htab.mem_roots, htab.admissible, htab.length_le, hn.symm.trans htab.at_path⟩
    · exact Or.inr hpath
  excess := by
    have hexcess := allocFrame_excess s
    rw [halloc] at hexcess
    exact h.excess.trans hexcess

/-- The descent of `pmap_map` takes only the missing tables, and fails only
when no page is left for the next one. -/
theorem pmapMapWalk_grows (hf : flags &&& pteAddrMask = 0) (level : Nat) {table : Nat}
    {q : List Idx} {s : Vm} (hsep : Separated userFormat roots s.mem)
    (hfree : FreeApart roots s) (hzero : ¬ s.pmm.Free 0)
    (ht : Table userFormat roots s.mem r q table)
    (hq : q.length + level = 3) (ha : Admissible userFormat (q ++ tablePath va level)) :
    Grows roots r (q ++ tablePath va level) s (pmapMapWalk va flags level table s).2 ∧
      ((pmapMapWalk va flags level table s).1 = none →
        (∀ page, ¬ (pmapMapWalk va flags level table s).2.pmm.Free page) ∧
        node child (pmapMapWalk va flags level table s).2.mem r (q ++ tablePath va level) =
          none) := by
  induction level generalizing table q s with
  | zero => exact ⟨Grows.refl _ _ _ s, fun h => by cases h⟩
  | succ level ih =>
    rw [append_tablePath_succ] at ha ⊢
    have hq' : (q ++ [idx va (level + 1)]).length + level = 3 := by
      simp only [List.length_append, List.length_singleton]
      omega
    rcases pmapMapWalk_succ va flags level table s with
      ⟨hpres, hw⟩ | ⟨habsent, hnone, hw⟩ | ⟨page, s₁, hpres, halloc, ⟨hz, hw⟩ | ⟨hz, hw⟩⟩
    · rw [hw]
      exact ih hsep hfree hzero (table_next ht (by omega) ha.init hpres) hq' ha
    · rw [hw]
      refine ⟨Grows.refl _ _ _ s, fun _ => ⟨(allocFrame_none_iff s).mp ⟨s, hnone⟩, ?_⟩⟩
      rw [node_append, node_concat, reach_node ht, Option.bind_some,
        child_eq_none.mpr habsent]
      rfl
    · -- Page 0 is not free, so it is not what the allocator returned.
      have hp := (allocFrame_some halloc).1
      rw [(physOf_eq_zero (hfree.page_lt hp)).mp hz] at hp
      exact absurd hp hzero
    · have hlt := hfree.page_lt (allocFrame_some halloc).1
      rw [hw, target_tableEntry hlt hf]
      obtain ⟨hext, hnew⟩ := extends_link hsep hfree ht (by omega) ha.init
        (child_eq_none.mpr hpres) halloc
        (fun h0 => hz ((physOf_eq_zero hlt).mpr h0)) (child_tableEntry hlt hf)
      obtain ⟨hgrow, hnone⟩ := ih hext.separated hext.freeApart (hext.not_free hzero) hnew hq' ha
      have hext' := (pmapMapWalk_spec hf level hext.separated hext.freeApart hnew
        hq' ha).1
      exact ⟨hgrow.of_link hsep hfree ht (child_eq_none.mpr hpres) halloc
        (child_tableEntry hlt hf) (hext'.tables hnew), hnone⟩

end Walk

/-- A table or a mapped page of the address space with the given root. -/
abbrev InTree (r : Nat) (s : Vm) (f : Nat) : Prop := ∃ p, Reach userFormat {r} s.mem 4 r p f

theorem reach_root (r : Nat) (s : Vm) : Reach userFormat {r} s.mem 4 r [] r :=
  ⟨rfl, admissible_nil _, by decide, rfl⟩

/-- All pages taken since the first state are in one tree or in `L`. -/
structure Grown (s₀ : Vm) (r : Nat) (L : Set Nat) (s : Vm) : Prop where
  separated : Separated userFormat {r} s.mem
  freeApart : FreeApart {r} s
  single : ∀ {p p' f}, Leaf userFormat {r} s.mem r p f → Leaf userFormat {r} s.mem r p' f → p = p'
  taken : ∀ f, s.pmm.bitmap f = true ↔ s₀.pmm.bitmap f = true ∨ f ∈ L ∨ InTree r s f
  fresh : ∀ f, f ∈ L ∨ InTree r s f → s₀.pmm.Free f
  loose : ∀ f ∈ L, ¬ InTree r s f
  zero : ¬ s.pmm.Free 0
  total : s.pmm.totalPages = s₀.pmm.totalPages
  excess : s.pmm.excess = s₀.pmm.excess
  kept : ∀ f, ¬ s₀.pmm.Free f → s.mem f = s₀.mem f
  refs : ∀ f, s.refs f = s₀.refs f ∨ s.refs f = s₀.refs f + 1 ∧
    (f ∈ L ∨ ∃ p, Leaf userFormat {r} s.mem r p f)
  refsPages : s.refsPages = s₀.refsPages

namespace Grown

variable {s₀ s s₁ : Vm} {r f : Nat} {L : Set Nat}

theorem free (h : Grown s₀ r L s) (hf : s.pmm.Free f) : s₀.pmm.Free f := by
  refine ⟨h.total ▸ hf.1, Bool.eq_false_of_not_eq_true fun hb => ?_⟩
  exact absurd (((h.taken f).mpr (Or.inl hb)).symm.trans hf.2) (by decide)

theorem not_loose_of_free (h : Grown s₀ r L s) (hf : s.pmm.Free f) :
    ¬ (f ∈ L ∨ InTree r s f) := fun hc =>
  absurd (((h.taken f).mpr (Or.inr hc)).symm.trans hf.2) (by decide)

theorem page_lt (h : Grown s₀ r L s) (hf : f ∈ L ∨ InTree r s f) : f < 2 ^ 40 :=
  h.freeApart.total_le.trans_lt' (h.total ▸ (h.fresh f hf).1)

/-- `pmap_create` takes one page. -/
theorem create {row : Idx → Word} (htotal : s.pmm.totalPages ≤ 2 ^ 40)
    (ha : allocFrame s = (some r, s₁)) (h0 : r ≠ 0) (hrow : ∀ i : Idx, i.val < 256 → row i = 0) :
    Grown s r ∅ (s₁.setFrame r row) := by
  obtain ⟨hp, ht, hbits, hrest⟩ := allocFrame_some ha
  -- The new root has nothing below it.
  have honly : ∀ {levels p g}, Reach userFormat {r} (s₁.setFrame r row).mem levels r p g →
      p = [] ∧ g = r := by
    intro levels p g hr
    cases p with
    | nil => exact ⟨rfl, (Option.some.inj hr.at_path).symm⟩
    | cons i p =>
      have hn := hr.at_path
      rw [userFormat_child, node_cons, Vm.setFrame_self, hrow i (hr.admissible i rfl),
        child_zero] at hn
      cases hn
  have hroot : InTree r (s₁.setFrame r row) r := ⟨[], reach_root r _⟩
  have hbit : ∀ g, (s₁.setFrame r row).pmm.bitmap g = true ↔ s.pmm.bitmap g = true ∨ g = r := by
    intro g
    change s₁.pmm.bitmap g = true ↔ _
    rw [hbits]
    by_cases hg : g = r
    · simp [hg]
    · simp [hg]
  have hexcess := allocFrame_excess s
  rw [ha] at hexcess
  exact
    { separated := by
        refine ⟨fun {r₁ p₁ r₂ p₂ g} h₁ h₂ => ?_, fun {r₁ p₁ r₂ p₂ g} h₁ h₂ => ?_⟩
        · obtain rfl : r₁ = r := h₁.mem_roots
          obtain rfl : r₂ = r₁ := h₂.mem_roots
          exact ⟨rfl, (honly h₁).1.trans (honly h₂).1.symm⟩
        · obtain rfl : r₂ = r := h₂.mem_roots
          have hl := h₂.length_eq
          rw [(honly h₂.reach).1] at hl
          cases hl
      freeApart := by
        refine ⟨ht.trans_le htotal, fun page hpage r' p hr => ?_⟩
        obtain rfl : r' = r := hr.mem_roots
        obtain ⟨-, rfl⟩ := honly hr
        exact absurd (((hbit page).mpr (Or.inr rfl)).symm.trans hpage.2) (by decide)
      single := fun h₁ h₂ => (honly h₁.reach).1.trans (honly h₂.reach).1.symm
      taken := by
        intro g
        rw [hbit]
        refine or_congr_right ⟨fun hg => Or.inr (hg ▸ hroot), ?_⟩
        rintro (hg | ⟨p, hg⟩)
        · cases hg
        · exact (honly hg).2
      fresh := by
        rintro g (hg | ⟨p, hg⟩)
        · cases hg
        · exact (honly hg).2 ▸ hp
      loose := fun g hg => by cases hg
      zero := by
        intro hz
        have hclear : s.pmm.bitmap 0 = false := by
          refine Bool.eq_false_of_not_eq_true fun hb => ?_
          exact absurd (((hbit 0).mpr (Or.inl hb)).symm.trans hz.2) (by decide)
        exact h0 (allocFrame_first ha ⟨ht ▸ hz.1, hclear⟩)
      total := ht
      excess := hexcess
      kept := by
        intro g hg
        have hne : g ≠ r := fun he => hg (he ▸ hp)
        rw [Vm.setFrame_of_ne _ _ hne, hrest]
      refs := fun g => Or.inl (by rw [hrest]; rfl)
      refsPages := by rw [hrest]; rfl }

/-- A successful `pmap_create` makes a tree of one table. -/
theorem pmapCreate {pml4 : Word} (htotal : s.pmm.totalPages ≤ 2 ^ 40)
    (hcreate : pmapCreate s = (pml4, s₁)) (hpml4 : pml4 ≠ 0) :
    ∃ page, frameOf pml4 = page ∧ Grown s page ∅ s₁ ∧
      ∀ {levels p f}, Reach userFormat {page} s₁.mem levels page p f → p = [] := by
  cases halloc : allocFrame s with
  | mk page s₂ =>
    unfold Mm.pmapCreate at hcreate
    rw [halloc] at hcreate
    cases page with
    | none => exact absurd (Prod.mk.inj hcreate).1.symm hpml4
    | some page =>
      have hlt : page < 2 ^ 40 := (allocFrame_some halloc).1.1.trans_le htotal
      cases hcreate
      have h0 : page ≠ 0 := fun h => hpml4 ((physOf_eq_zero hlt).mpr h)
      refine ⟨page, frameOf_physOf hlt, create htotal halloc h0 fun i hi => if_pos hi, ?_⟩
      intro levels p f hr
      cases p with
      | nil => rfl
      | cons i q =>
        have hi : i.val < 256 := hr.admissible i rfl
        have hn := hr.at_path
        rw [userFormat_child, node_cons, Vm.setFrame_self, if_pos hi, child_zero] at hn
        cases hn

theorem frameRefInc_mem (s : Vm) (pa : Word) : (frameRefInc s pa).mem = s.mem := by
  unfold frameRefInc
  split <;> rfl

/-- A page taken and filled is loose. -/
theorem alloc (h : Grown s₀ r L s) (ha : allocFrame s = (some f, s₁)) (row : Idx → Word) :
    Grown s₀ r (insert f L) (s₁.setFrame f row) := by
  obtain ⟨hp, -, hbits, hrest⟩ := allocFrame_some ha
  have hext := extends_alloc h.separated h.freeApart ha row
  have hreach : ∀ p g, Reach userFormat {r} (s₁.setFrame f row).mem 4 r p g ↔
      Reach userFormat {r} s.mem 4 r p g := fun p g =>
    reach_congr (fun _ hr _ hadm hl => node_alloc h.freeApart ha row hr hadm hl) le_rfl _ _ _
  have htree : ∀ g, InTree r (s₁.setFrame f row) g ↔ InTree r s g := fun g =>
    exists_congr fun p => hreach p g
  have hleaf : ∀ p g, Leaf userFormat {r} (s₁.setFrame f row).mem r p g ↔
      Leaf userFormat {r} s.mem r p g := by
    intro p g
    constructor
    · intro hl
      exact ⟨rfl, hl.admissible, hl.length_eq, ((hreach p g).mp hl.reach).at_path⟩
    · intro hl
      exact ⟨rfl, hl.admissible, hl.length_eq, ((hreach p g).mpr hl.reach).at_path⟩
  have hexcess := allocFrame_excess s
  rw [ha] at hexcess
  exact
    { separated := hext.separated
      freeApart := hext.freeApart
      single := fun h₁ h₂ => h.single ((hleaf _ _).mp h₁) ((hleaf _ _).mp h₂)
      taken := by
        intro g
        change s₁.pmm.bitmap g = true ↔ _
        rw [hbits, htree, Set.mem_insert_iff]
        by_cases hg : g = f
        · simp [hg]
        · rw [Function.update_of_ne hg, h.taken g]
          simp [hg]
      fresh := by
        rintro g ((rfl | hg) | hg)
        · exact h.free hp
        · exact h.fresh g (Or.inl hg)
        · exact h.fresh g (Or.inr ((htree g).mp hg))
      loose := by
        rintro g (rfl | hg) hin
        · exact h.not_loose_of_free hp (Or.inr ((htree g).mp hin))
        · exact h.loose g hg ((htree g).mp hin)
      zero := hext.not_free h.zero
      total := hext.total.trans h.total
      excess := hexcess.trans h.excess
      kept := by
        intro g hg
        have hne : g ≠ f := fun he => hg (he ▸ h.free hp)
        rw [Vm.setFrame_of_ne _ _ hne, hrest]
        exact h.kept g hg
      refs := by
        intro g
        have hr : (s₁.setFrame f row).refs g = s.refs g := by rw [hrest]; rfl
        rw [hr]
        refine (h.refs g).imp_right fun hg => ⟨hg.1, hg.2.imp (Set.mem_insert_of_mem f) ?_⟩
        exact fun ⟨p, hl⟩ => ⟨p, (hleaf p g).mpr hl⟩
      refsPages := by
        rw [hrest]
        exact h.refsPages }

/-- A loose page may be counted once. -/
theorem refInc (h : Grown s₀ r L s) (hf : f ∈ L) (hone : s.refs f = s₀.refs f) :
    Grown s₀ r L (frameRefInc s (physOf f)) := by
  have hlt := h.page_lt (Or.inl hf)
  unfold frameRefInc
  split
  · rw [frameOf_physOf hlt]
    exact
      { h with
        freeApart := ⟨h.freeApart.total_le, h.freeApart.apart⟩
        refs := by
          intro g
          by_cases hg : g = f
          · subst hg
            refine Or.inr ⟨?_, Or.inl hf⟩
            dsimp only
            rw [Function.update_self, hone]
          · dsimp only
            rw [Function.update_of_ne hg]
            exact h.refs g }
  · exact h

/-- The count of a page that is still free is untouched. -/
theorem refs_of_free (h : Grown s₀ r L s) (hf : s.pmm.Free f) : s.refs f = s₀.refs f := by
  refine (h.refs f).resolve_right fun hc => ?_
  exact h.not_loose_of_free hf (hc.2.imp_right fun ⟨p, hl⟩ => ⟨p, hl.reach⟩)

section Map

variable {pml4Phys va flags : Word}

/-- The descent of `pmap_map` keeps the account. -/
theorem walk (h : Grown s₀ r L s) (hr : frameOf pml4Phys = r) (hf : flags &&& pteAddrMask = 0)
    (hva : UserVa va) : Grown s₀ r L (mapWalk s pml4Phys va flags).2 := by
  subst hr
  have hext := (mapWalk_spec hf h.separated h.freeApart rfl hva).1
  have hgrow := (pmapMapWalk_grows hf 3 h.separated h.freeApart h.zero (Owned.root_table rfl) rfl
    (admissible_pagePath hva).init).1
  have hleaf : ∀ p g, Leaf userFormat {frameOf pml4Phys} (mapWalk s pml4Phys va flags).2.mem
      (frameOf pml4Phys) p g ↔ Leaf userFormat {frameOf pml4Phys} s.mem (frameOf pml4Phys) p g :=
    fun p g => hext.leaf_iff
  have hgrown : ∀ g, InTree (frameOf pml4Phys) (mapWalk s pml4Phys va flags).2 g →
      InTree (frameOf pml4Phys) s g ∨ s.pmm.Free g ∧
        (mapWalk s pml4Phys va flags).2.pmm.bitmap g = true := by
    rintro g ⟨p, hp⟩
    rcases hp.table_or_leaf with ht | hl
    · exact (hext.fresh ht).imp (fun ht => ⟨p, ht.weaken (by decide)⟩) fun hn => ⟨hn.1, hn.2.1⟩
    · exact Or.inl ⟨p, ((hleaf p g).mp hl).reach⟩
  have hkeep : ∀ g, InTree (frameOf pml4Phys) s g →
      InTree (frameOf pml4Phys) (mapWalk s pml4Phys va flags).2 g := by
    rintro g ⟨p, hp⟩
    rcases hp.table_or_leaf with ht | hl
    · exact ⟨p, (hext.tables ht).weaken (by decide)⟩
    · exact ⟨p, ((hleaf p g).mpr hl).reach⟩
  exact
    { separated := hext.separated
      freeApart := hext.freeApart
      single := fun h₁ h₂ => h.single ((hleaf _ _).mp h₁) ((hleaf _ _).mp h₂)
      taken := by
        intro g
        constructor
        · intro hg
          rcases hgrow.used g hg with hg | ⟨p, ht⟩
          · exact ((h.taken g).mp hg).imp_right (Or.imp_right (hkeep g))
          · exact Or.inr (Or.inr ⟨p, ht.weaken (by decide)⟩)
        · rintro (hg | hg | hg)
          · exact hext.used g ((h.taken g).mpr (Or.inl hg))
          · exact hext.used g ((h.taken g).mpr (Or.inr (Or.inl hg)))
          · rcases hgrown g hg with hg | hg
            · exact hext.used g ((h.taken g).mpr (Or.inr (Or.inr hg)))
            · exact hg.2
      fresh := by
        rintro g (hg | hg)
        · exact h.fresh g (Or.inl hg)
        · exact (hgrown g hg).elim (fun hg => h.fresh g (Or.inr hg)) fun hg => h.free hg.1
      loose := by
        intro g hg hin
        rcases hgrown g hin with hin | hin
        · exact h.loose g hg hin
        · exact h.not_loose_of_free hin.1 (Or.inl hg)
      zero := hext.not_free h.zero
      total := hext.total.trans h.total
      excess := hgrow.excess.trans h.excess
      kept := by
        intro g hg
        rw [hext.foreign g (fun hfree => hg (h.free hfree)) fun r' p ht => ?_]
        · exact h.kept g hg
        · obtain rfl : r' = frameOf pml4Phys := ht.mem_roots
          exact hg (h.fresh g (Or.inr ⟨p, ht.weaken (by decide)⟩))
      refs := by
        intro g
        rw [hext.rest]
        refine (h.refs g).imp_right fun hg => ⟨hg.1, hg.2.imp_right fun ⟨p, hl⟩ => ⟨p, ?_⟩⟩
        exact (hleaf p g).mpr hl
      refsPages := by
        rw [hext.rest]
        exact h.refsPages }

/-- The mapped pages after a loose page is mapped at an empty address. -/
theorem leaf_map {t : Nat} (h : Grown s₀ r L s) (hr : frameOf pml4Phys = r)
    (hf : flags &&& pteAddrMask = 0) (hva : UserVa va)
    (hw : (mapWalk s pml4Phys va flags).1 = some t) (hfL : f ∈ L)
    (hnone : node child s.mem r (pagePath va) = none) {p : List Idx} {g : Nat} :
    Leaf userFormat {r} (pmapMap s pml4Phys va (physOf f) flags).mem r p g ↔
      p = pagePath va ∧ g = f ∨ Leaf userFormat {r} s.mem r p g := by
  subst hr
  have hlt := h.page_lt (Or.inl hfL)
  rw [leaf_pmapMap (physOf f) hf h.separated h.freeApart rfl hva hw, target_physOf hlt]
  constructor
  · rintro (⟨-, hp, hg⟩ | ⟨-, hl⟩)
    · exact Or.inl ⟨hp, hg⟩
    · exact Or.inr hl
  · rintro (⟨hp, hg⟩ | hl)
    · exact Or.inl ⟨rfl, hp, hg⟩
    · refine Or.inr ⟨fun hc => ?_, hl⟩
      have hn := hl.at_path
      rw [hc.2, userFormat_child, hnone] at hn
      cases hn

/-- Mapping a loose page puts it into the tree. -/
theorem map {t : Nat} (h : Grown s₀ r L s) (hr : frameOf pml4Phys = r)
    (hf : flags &&& pteAddrMask = 0) (hva : UserVa va)
    (hw : (mapWalk s pml4Phys va flags).1 = some t) (hfL : f ∈ L)
    (hnone : node child s.mem r (pagePath va) = none) :
    Grown s₀ r (L \ {f}) (pmapMap s pml4Phys va (physOf f) flags) := by
  have hW := h.walk hr hf hva
  have hleaf := fun p g => h.leaf_map hr hf hva hw hfL hnone (p := p) (g := g)
  subst hr
  have hlt := h.page_lt (Or.inl hfL)
  obtain ⟨hext, hend⟩ := mapWalk_spec hf h.separated h.freeApart rfl hva
  have htable := fun p g => table_pmapMap (r := frameOf pml4Phys) (physOf f) hf h.separated
    h.freeApart rfl hva hw p g
  have hset := pmapMap_of_some (physOf f) hw
  have hpmm : (pmapMap s pml4Phys va (physOf f) flags).pmm =
      (mapWalk s pml4Phys va flags).2.pmm := by rw [hset]; rfl
  have htree : ∀ g, InTree (frameOf pml4Phys) (pmapMap s pml4Phys va (physOf f) flags) g ↔
      g = f ∨ InTree (frameOf pml4Phys) (mapWalk s pml4Phys va flags).2 g := by
    intro g
    constructor
    · rintro ⟨p, hp⟩
      rcases hp.table_or_leaf with ht | hl
      · exact Or.inr ⟨p, ((htable p g).mp ht).weaken (by decide)⟩
      · rcases (hleaf p g).mp hl with ⟨-, hg⟩ | hl
        · exact Or.inl hg
        · exact Or.inr ⟨p, (hext.leaf_iff.mpr hl).reach⟩
    · rintro (rfl | ⟨p, hp⟩)
      · exact ⟨pagePath va, ((hleaf _ g).mpr (Or.inl ⟨rfl, rfl⟩)).reach⟩
      · rcases hp.table_or_leaf with ht | hl
        · exact ⟨p, ((htable p g).mpr ht).weaken (by decide)⟩
        · exact ⟨p, ((hleaf p g).mpr (Or.inr (hext.leaf_iff.mp hl))).reach⟩
  have hused : (mapWalk s pml4Phys va flags).2.pmm.bitmap f = true :=
    (hW.taken f).mpr (Or.inr (Or.inl hfL))
  exact
    { separated := by
        rw [separated_pmapMap_iff (physOf f) hf h.separated h.freeApart rfl hva hw,
          target_physOf hlt]
        intro r' p ht
        obtain rfl : r' = frameOf pml4Phys := ht.mem_roots
        exact hW.loose f hfL ⟨p, ((htable p f).mp ht).weaken (by decide)⟩
      freeApart := by
        refine ⟨hpmm ▸ hW.freeApart.total_le, fun g hg r' p hp => ?_⟩
        rw [hpmm] at hg
        obtain rfl : r' = frameOf pml4Phys := hp.mem_roots
        rcases (htree g).mp ⟨p, hp⟩ with rfl | ⟨q, hq⟩
        · exact absurd (hused.symm.trans hg.2) (by decide)
        · exact hW.freeApart.apart g hg _ q hq
      single := by
        intro p p' g h₁ h₂
        have hout : ∀ q, ¬ Leaf userFormat {frameOf pml4Phys} s.mem (frameOf pml4Phys) q f :=
          fun q hl => h.loose f hfL ⟨q, hl.reach⟩
        rcases (hleaf p g).mp h₁ with ⟨hp, hg⟩ | hl₁
        · rcases (hleaf p' g).mp h₂ with ⟨hp', -⟩ | hl₂
          · exact hp.trans hp'.symm
          · exact absurd (hg ▸ hl₂) (hout p')
        · rcases (hleaf p' g).mp h₂ with ⟨-, hg⟩ | hl₂
          · exact absurd (hg ▸ hl₁) (hout p)
          · exact h.single hl₁ hl₂
      taken := by
        intro g
        rw [hpmm, hW.taken g, htree g]
        by_cases hg : g = f
        · simp [hg, hfL]
        · simp [hg]
      fresh := by
        rintro g (hg | hg)
        · exact h.fresh g (Or.inl hg.1)
        · rcases (htree g).mp hg with rfl | hg
          · exact h.fresh g (Or.inl hfL)
          · exact hW.fresh g (Or.inr hg)
      loose := by
        rintro g ⟨hg, hne⟩ hin
        exact ((htree g).mp hin).elim hne (hW.loose g hg)
      zero := hpmm ▸ hW.zero
      total := hpmm ▸ hW.total
      excess := hpmm ▸ hW.excess
      kept := by
        intro g hg
        have hne : g ≠ t := by
          rintro rfl
          exact hg (hW.fresh g (Or.inr ⟨_, (hend g hw).weaken (by decide)⟩))
        rw [hset]
        exact (setCell_row_of_ne _ _ _ hne).trans (hW.kept g hg)
      refs := by
        intro g
        have hr : (pmapMap s pml4Phys va (physOf f) flags).refs g =
            (mapWalk s pml4Phys va flags).2.refs g := by rw [hset]; rfl
        rw [hr]
        refine (hW.refs g).imp_right fun hc => ⟨hc.1, ?_⟩
        by_cases hg : g = f
        · exact Or.inr ⟨_, (hleaf _ g).mpr (Or.inl ⟨rfl, hg⟩)⟩
        · refine hc.2.imp (fun hL => ⟨hL, hg⟩) fun ⟨p, hl⟩ => ⟨p, ?_⟩
          exact (hleaf p g).mpr (Or.inr (hext.leaf_iff.mp hl))
      refsPages := by
        rw [hset]
        exact hW.refsPages }

end Map

end Grown

end Mmix.Mm
