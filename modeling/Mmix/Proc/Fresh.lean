import Mmix.Proc.Image
import Mmix.Mm.ForkCopy

/-!
# Mapping fresh pages

What the loop shared by `map_zeroed_range`, `sys_mmap` and `sys_brk` does to an
address space that may already hold pages: every page it maps is a formerly free
one, filled with zeros and mapped nowhere else, and all other pages stay. The
loop falls short only when the allocator has no page left.
-/

namespace Mmix.Proc

open Mm Forest

/-- The flags of the pages that the loop maps. -/
abbrev freshFlags : Word := pteUser ||| pteWrite

/-- The entry that maps a fresh page. -/
def freshEntry (page : Nat) : Word := (physOf page &&& pteAddrMask) ||| ptePresent ||| freshFlags

/-- The entry for an address in its last-level table. -/
def pteAt (s : Vm) (r : Nat) (va : Word) : Option Word :=
  (node child s.mem r (tablePath va 3)).map fun t => s.mem t (idx va 0)

/-- The pages at the places `D` are fresh, and everything else is as it was in the
first state, up to new tables. -/
structure Mapped (s₀ : Vm) (r : Nat) (D : Set (List Idx)) (s : Vm) : Prop where
  separated : Separated userFormat {r} s.mem
  freeApart : FreeApart {r} s
  old : ∀ {p f}, p ∉ D → (Leaf userFormat {r} s.mem r p f ↔ Leaf userFormat {r} s₀.mem r p f)
  page : ∀ p ∈ D, ∃ f, Leaf userFormat {r} s.mem r p f ∧ s₀.pmm.Free f ∧ s.mem f = fun _ => 0
  single : ∀ {p p' f}, p ∈ D → Leaf userFormat {r} s.mem r p f →
    Leaf userFormat {r} s.mem r p' f → p = p'
  tables : ∀ {p f}, Table userFormat {r} s₀.mem r p f → Table userFormat {r} s.mem r p f
  newTable : ∀ {p f}, Table userFormat {r} s.mem r p f →
    Table userFormat {r} s₀.mem r p f ∨ s₀.pmm.Free f
  entry : ∀ va, UserVa va → pagePath va ∈ D → ∃ f, pteAt s r va = some (freshEntry f)
  free : ∀ f, s.pmm.Free f → s₀.pmm.Free f
  kept : ∀ f, ¬ s₀.pmm.Free f → (∀ p, ¬ Table userFormat {r} s₀.mem r p f) → s.mem f = s₀.mem f
  total : s.pmm.totalPages = s₀.pmm.totalPages
  ctl : s.ctl = s₀.ctl

theorem Mapped.refl {s : Vm} {r : Nat} (hsep : Separated userFormat {r} s.mem)
    (hfree : FreeApart {r} s) : Mapped s r ∅ s where
  separated := hsep
  freeApart := hfree
  old := fun _ => Iff.rfl
  page := fun _ hp => hp.elim
  single := fun hp => hp.elim
  tables := id
  newTable := Or.inl
  entry := fun _ _ hp => hp.elim
  free := fun _ => id
  kept := fun _ _ _ => rfl
  total := rfl
  ctl := rfl

section Rows

variable {roots : Set Nat} {va flags : Word} {r : Nat}

/-- The descent of `pmap_map` writes to no last-level table that was there before. -/
theorem pmapMapWalk_row (hf : flags &&& pteAddrMask = 0) (level : Nat) {table : Nat}
    {q : List Idx} {s : Vm} (hsep : Separated userFormat roots s.mem)
    (hfree : FreeApart roots s) (ht : Table userFormat roots s.mem r q table)
    (hq : q.length + level = 3) (ha : Admissible userFormat (q ++ tablePath va level))
    {r' t : Nat} {p : List Idx} (hlast : Table userFormat roots s.mem r' p t)
    (hp : p.length = 3) : (pmapMapWalk va flags level table s).2.mem t = s.mem t := by
  induction level generalizing table q s with
  | zero => rfl
  | succ level ih =>
    rw [append_tablePath_succ] at ha
    have hq' : (q ++ [idx va (level + 1)]).length + level = 3 := by
      simp only [List.length_append, List.length_singleton]
      omega
    -- A page from the allocator is no table yet.
    have hne : ∀ {page : Nat} {s₁ : Vm}, allocFrame s = (some page, s₁) → t ≠ page := by
      rintro page s₁ halloc rfl
      exact hfree.apart t (allocFrame_some halloc).1 _ _ (hlast.weaken (by decide))
    have hrow : ∀ {page : Nat} {s₁ : Vm}, allocFrame s = (some page, s₁) →
        (s₁.zeroFrame page).mem t = s.mem t := by
      intro page s₁ halloc
      rw [(allocFrame_some halloc).2.2.2]
      exact if_neg (hne halloc)
    rcases pmapMapWalk_succ va flags level table s with
      ⟨hpres, hw⟩ | ⟨-, -, hw⟩ | ⟨page, s₁, hpres, halloc, ⟨-, hw⟩ | ⟨hz, hw⟩⟩
    · rw [hw]
      exact ih hsep hfree (table_next ht (by omega) ha.init hpres) hq' ha hlast
    · rw [hw]
    · rw [hw]
      exact hrow halloc
    · have hlt := hfree.page_lt (allocFrame_some halloc).1
      rw [hw, target_tableEntry hlt hf]
      obtain ⟨hext, hnew⟩ := extends_link hsep hfree ht (by omega) ha.init
        (child_eq_none.mpr hpres) halloc
        (fun h0 => hz ((physOf_eq_zero hlt).mpr h0)) (child_tableEntry hlt hf)
      rw [ih hext.separated hext.freeApart hnew hq' ha (hext.tables hlast)]
      have htable : t ≠ table := by
        rintro rfl
        have := (hsep.table_unique hlast ht).2
        subst this
        omega
      exact (setCell_row_of_ne _ _ _ htable).trans (hrow halloc)

end Rows

namespace Mapped

variable {s₀ s s' : Vm} {r : Nat} {D : Set (List Idx)} {pml4 va : Word}

/-- A mapped page is not free. -/
theorem leaf_not_free (h : Mapped s₀ r D s) {p : List Idx} {f : Nat}
    (hl : Leaf userFormat {r} s.mem r p f) : ¬ s.pmm.Free f :=
  fun hc => h.freeApart.apart f hc _ _ hl.reach

/-- New tables change nothing else. -/
theorem extend (h : Mapped s₀ r D s) (hext : Extends {r} s s')
    (hrow : ∀ p t, Table userFormat {r} s.mem r p t → p.length = 3 → s'.mem t = s.mem t) :
    Mapped s₀ r D s' where
  separated := hext.separated
  freeApart := hext.freeApart
  old := fun hp => hext.leaf_iff.trans (h.old hp)
  page := by
    intro p hp
    obtain ⟨f, hl, hfree, hz⟩ := h.page p hp
    refine ⟨f, hext.leaf_iff.mpr hl, hfree, ?_⟩
    exact (hext.foreign f (h.leaf_not_free hl)
      fun _ _ ht => h.separated.leaf_ne_table ht hl).trans hz
  single := fun hp h₁ h₂ => h.single hp (hext.leaf_iff.mp h₁) (hext.leaf_iff.mp h₂)
  tables := fun ht => hext.tables (h.tables ht)
  newTable := by
    intro p f ht
    rcases hext.fresh ht with ht | ⟨hfree, -⟩
    · exact h.newTable ht
    · exact Or.inr (h.free f hfree)
  entry := by
    intro va hva hp
    obtain ⟨f, hf⟩ := h.entry va hva hp
    refine ⟨f, ?_⟩
    obtain ⟨t, ht, he⟩ := Option.map_eq_some_iff.mp hf
    have htab : Table userFormat {r} s.mem r (tablePath va 3) t :=
      ⟨rfl, (admissible_pagePath hva).init, (tablePath_length va 3).le, ht⟩
    rw [pteAt, show node child s'.mem r (tablePath va 3) = some t from (hext.tables htab).at_path,
      Option.map_some, hrow _ t htab (tablePath_length va 3), he]
  free := fun f hf => h.free f (hext.free hf)
  kept := by
    intro f hf hnt
    refine (hext.foreign f (fun hc => hf (h.free f hc)) fun r' p ht => ?_).trans (h.kept f hf hnt)
    obtain rfl : r' = r := ht.mem_roots
    exact (h.newTable ht).elim (hnt p) hf
  total := hext.total.trans h.total
  ctl := by
    rw [← h.ctl, hext.rest]
    rfl

section Place

variable {t page : Nat}

theorem child_freshEntry (hlt : page < 2 ^ 40) : child (freshEntry page) = some page := by
  rw [freshEntry, child_leaf_entry _ (by decide), target_physOf hlt]

/-- A new entry in a last-level table changes one place of the tree. -/
theorem node_place (h : Mapped s₀ r D s)
    (ht : Table userFormat {r} s.mem r (tablePath va 3) t) (hlt : page < 2 ^ 40)
    {p : List Idx} (ha : Admissible userFormat p) (hl : p.length ≤ 4) :
    node child (s.setEntry t (idx va 0) (freshEntry page)).mem r p =
      if p = pagePath va then some page else node child s.mem r p := by
  have hset := node_setCell_last h.separated ht (tablePath_length va 3) (idx va 0)
    (freshEntry page) (Set.mem_singleton r) ha hl
  simp only [true_and, userFormat_child, child_freshEntry hlt] at hset
  exact hset

theorem leaf_place (h : Mapped s₀ r D s) (hva : UserVa va)
    (ht : Table userFormat {r} s.mem r (tablePath va 3) t) (hlt : page < 2 ^ 40)
    {p : List Idx} {f : Nat} :
    Leaf userFormat {r} (s.setEntry t (idx va 0) (freshEntry page)).mem r p f ↔
      p = pagePath va ∧ f = page ∨ p ≠ pagePath va ∧ Leaf userFormat {r} s.mem r p f := by
  constructor
  · intro hl
    have hn := hl.at_path
    rw [userFormat_child, h.node_place ht hlt hl.admissible hl.length_eq.le] at hn
    by_cases hp : p = pagePath va
    · rw [if_pos hp] at hn
      exact Or.inl ⟨hp, (Option.some.inj hn).symm⟩
    · rw [if_neg hp] at hn
      exact Or.inr ⟨hp, rfl, hl.admissible, hl.length_eq, hn⟩
  · rintro (⟨rfl, rfl⟩ | ⟨hp, hl⟩)
    · refine ⟨rfl, admissible_pagePath hva, pagePath_length va, ?_⟩
      rw [userFormat_child, h.node_place ht hlt (admissible_pagePath hva) (pagePath_length va).le,
        if_pos rfl]
    · refine ⟨rfl, hl.admissible, hl.length_eq, ?_⟩
      rw [userFormat_child, h.node_place ht hlt hl.admissible hl.length_eq.le, if_neg hp]
      exact hl.at_path

theorem table_place (h : Mapped s₀ r D s)
    (ht : Table userFormat {r} s.mem r (tablePath va 3) t) (hlt : page < 2 ^ 40)
    {p : List Idx} {f : Nat} :
    Table userFormat {r} (s.setEntry t (idx va 0) (freshEntry page)).mem r p f ↔
      Table userFormat {r} s.mem r p f := by
  have hnode : Admissible userFormat p → p.length ≤ 3 →
      node child (s.setEntry t (idx va 0) (freshEntry page)).mem r p = node child s.mem r p := by
    intro ha hl
    rw [h.node_place ht hlt ha (hl.trans (by decide)), if_neg]
    rintro rfl
    rw [pagePath_length] at hl
    omega
  constructor
  · intro htab
    exact ⟨rfl, htab.admissible, htab.length_le,
      (hnode htab.admissible htab.length_le).symm.trans htab.at_path⟩
  · intro htab
    exact ⟨rfl, htab.admissible, htab.length_le,
      (hnode htab.admissible htab.length_le).trans htab.at_path⟩

/-- The entries of the fresh pages, the new one included. -/
theorem entry_place (h : Mapped s₀ r D s)
    (ht : Table userFormat {r} s.mem r (tablePath va 3) t) (hlt : page < 2 ^ 40) (va' : Word)
    (hva' : UserVa va') (hp : pagePath va' ∈ insert (pagePath va) D) :
    ∃ f, pteAt (s.setEntry t (idx va 0) (freshEntry page)) r va' = some (freshEntry f) := by
  have hsame : ∀ {t'}, node child s.mem r (tablePath va' 3) = some t' →
      pteAt (s.setEntry t (idx va 0) (freshEntry page)) r va' =
        some ((s.setEntry t (idx va 0) (freshEntry page)).mem t' (idx va' 0)) := by
    intro t' ht'
    have htab : Table userFormat {r} s.mem r (tablePath va' 3) t' :=
      ⟨rfl, (admissible_pagePath hva').init, (tablePath_length va' 3).le, ht'⟩
    rw [pteAt, show node child _ r (tablePath va' 3) = some t' from
      ((h.table_place ht hlt).mpr htab).at_path]
    rfl
  by_cases hpa : pagePath va' = pagePath va
  · obtain ⟨htp, hi⟩ := List.append_inj' hpa rfl
    refine ⟨page, ?_⟩
    rw [hsame (htp ▸ ht.at_path), List.singleton_inj.mp hi]
    exact congrArg some (setCell_same _ _ _ _)
  · obtain ⟨f, hf⟩ := h.entry va' hva' (Set.mem_of_mem_insert_of_ne hp hpa)
    obtain ⟨t', ht', he⟩ := Option.map_eq_some_iff.mp hf
    refine ⟨f, ?_⟩
    rw [hsame ht', ← he]
    refine congrArg some (setCell_of_ne _ _ ?_)
    rintro ⟨rfl, hi⟩
    have htab : Table userFormat {r} s.mem r (tablePath va' 3) t' :=
      ⟨rfl, (admissible_pagePath hva').init, (tablePath_length va' 3).le, ht'⟩
    exact hpa (congrArg₂ (· ++ [·]) (h.separated.table_unique htab ht).2 hi)

/-- A page that lies in no address space is mapped. -/
theorem place (h : Mapped s₀ r D s) (hva : UserVa va)
    (ht : Table userFormat {r} s.mem r (tablePath va 3) t) (hlt : page < 2 ^ 40)
    (hpage : s₀.pmm.Free page) (hused : ¬ s.pmm.Free page) (hloose : ¬ InTree r s page)
    (hzero : s.mem page = fun _ => 0) :
    Mapped s₀ r (insert (pagePath va) D) (s.setEntry t (idx va 0) (freshEntry page)) := by
  have hleaf := fun p f => h.leaf_place hva ht hlt (p := p) (f := f)
  have htable := fun p f => h.table_place ht hlt (p := p) (f := f)
  have hne : page ≠ t := by
    rintro rfl
    exact hloose ⟨_, ht.weaken (by decide)⟩
  have hrow : ∀ f, f ≠ t → (s.setEntry t (idx va 0) (freshEntry page)).mem f = s.mem f :=
    fun f hf => setCell_row_of_ne _ _ _ hf
  exact
    { separated :=
        { table_unique := by
            intro r₁ p₁ r₂ p₂ f h₁ h₂
            obtain rfl : r₁ = r := h₁.mem_roots
            obtain rfl : r₂ = r₁ := h₂.mem_roots
            exact h.separated.table_unique ((htable _ _).mp h₁) ((htable _ _).mp h₂)
          leaf_ne_table := by
            intro r₁ p₁ r₂ p₂ f h₁ h₂
            obtain rfl : r₁ = r := h₁.mem_roots
            obtain rfl : r₂ = r₁ := h₂.mem_roots
            have htab := (htable _ _).mp h₁
            rcases (hleaf _ _).mp h₂ with ⟨-, rfl⟩ | ⟨-, hl⟩
            · exact hloose ⟨_, htab.weaken (by decide)⟩
            · exact h.separated.leaf_ne_table htab hl }
      freeApart := by
        refine ⟨h.freeApart.total_le, fun f hf r' p hp => ?_⟩
        obtain rfl : r' = r := hp.mem_roots
        rcases hp.table_or_leaf with htab | hl
        · exact h.freeApart.apart f hf _ _ (((htable _ _).mp htab).weaken (by decide))
        · rcases (hleaf _ _).mp hl with ⟨-, rfl⟩ | ⟨-, hl⟩
          · exact hused hf
          · exact h.freeApart.apart f hf _ _ hl.reach
      old := by
        intro p f hp
        rw [Set.mem_insert_iff, not_or] at hp
        rw [hleaf, ← h.old hp.2]
        exact ⟨fun hc => hc.elim (fun hc => absurd hc.1 hp.1) And.right, fun hl => Or.inr ⟨hp.1, hl⟩⟩
      page := by
        intro p hp
        by_cases hpa : p = pagePath va
        · exact ⟨page, (hleaf _ _).mpr (Or.inl ⟨hpa, rfl⟩), hpage, (hrow page hne).trans hzero⟩
        · obtain ⟨f, hl, hfree, hz⟩ := h.page p (Set.mem_of_mem_insert_of_ne hp hpa)
          refine ⟨f, (hleaf _ _).mpr (Or.inr ⟨hpa, hl⟩), hfree, (hrow f ?_).trans hz⟩
          rintro rfl
          exact h.separated.leaf_ne_table ht hl
      single := by
        intro p p' f hp h₁ h₂
        rcases (hleaf _ _).mp h₁ with ⟨hpa, hf⟩ | ⟨hpa, hl₁⟩
        · rcases (hleaf _ _).mp h₂ with ⟨hpa', -⟩ | ⟨-, hl₂⟩
          · exact hpa.trans hpa'.symm
          · exact absurd ⟨_, hf ▸ hl₂.reach⟩ hloose
        · rcases (hleaf _ _).mp h₂ with ⟨-, hf⟩ | ⟨-, hl₂⟩
          · exact absurd ⟨_, hf ▸ hl₁.reach⟩ hloose
          · exact h.single (Set.mem_of_mem_insert_of_ne hp hpa) hl₁ hl₂
      tables := fun htab => (htable _ _).mpr (h.tables htab)
      newTable := fun htab => h.newTable ((htable _ _).mp htab)
      entry := h.entry_place ht hlt
      free := h.free
      kept := by
        intro f hf hnt
        refine (hrow f ?_).trans (h.kept f hf hnt)
        rintro rfl
        exact (h.newTable ht).elim (hnt _) hf
      total := h.total
      ctl := h.ctl }

end Place

/-- The pages that one round takes are the new page and tables on the way to it. -/
def TakesOnWay (r : Nat) (va : Word) (page : Nat) (s s' : Vm) : Prop :=
  ∀ f, s.pmm.Free f → ¬ s'.pmm.Free f →
    f = page ∨ ∃ p, p <+: tablePath va 3 ∧ Table userFormat {r} s'.mem r p f

/-- One round of the loop maps a page, or the allocator has no page left for a
table and nothing is mapped. -/
theorem round (h : Mapped s₀ r D s) (hr : frameOf pml4 = r) (hva : UserVa va)
    {page : Nat} {s₁ : Vm} (halloc : allocFrame s = (some page, s₁))
    (hmap : s' = pmapMap (s₁.zeroFrame page) pml4 va (physOf page) freshFlags) :
    TakesOnWay r va page s s' ∧
      (Mapped s₀ r (insert (pagePath va) D) s' ∧
          Leaf userFormat {r} s'.mem r (pagePath va) page ∨
        Mapped s₀ r D s' ∧ (∀ f, ¬ s'.pmm.Free f) ∧
          node child s'.mem r (tablePath va 3) = none) := by
  subst hr
  obtain ⟨hfree, -, hbits, hrest⟩ := allocFrame_some halloc
  have hext : Extends {frameOf pml4} s (s₁.zeroFrame page) :=
    extends_alloc h.separated h.freeApart halloc fun _ => 0
  have hlt := h.freeApart.page_lt hfree
  have htaken : (s₁.zeroFrame page).pmm.bitmap page = true := by
    show s₁.pmm.bitmap page = true
    rw [hbits, Function.update_self]
  -- The first page handed out is page 0 if that one is free, so no table can be page 0.
  have hzero : ¬ (s₁.zeroFrame page).pmm.Free 0 := by
    intro hc
    obtain rfl := allocFrame_first halloc (hext.free hc)
    exact absurd (htaken.symm.trans hc.2) (by decide)
  have hrow : ∀ p t, Table userFormat {frameOf pml4} s.mem (frameOf pml4) p t → p.length = 3 →
      (s₁.zeroFrame page).mem t = s.mem t := by
    intro p t ht _
    have hne : t ≠ page := by
      rintro rfl
      exact h.freeApart.apart t hfree _ _ (ht.weaken (by decide))
    rw [hrest]
    exact if_neg hne
  have h₁ := h.extend hext hrow
  have hroot : Table userFormat {frameOf pml4} (s₁.zeroFrame page).mem (frameOf pml4) []
      (frameOf pml4) := ⟨rfl, admissible_nil _, Nat.zero_le _, rfl⟩
  have ha := (admissible_pagePath hva).init
  have hflags : freshFlags &&& pteAddrMask = 0 := by decide
  obtain ⟨hwalk, hend⟩ := mapWalk_spec hflags h₁.separated h₁.freeApart rfl hva
  have h₂ := h₁.extend hwalk fun p t ht hp =>
    pmapMapWalk_row hflags 3 h₁.separated h₁.freeApart hroot rfl ha ht hp
  have hgrow := pmapMapWalk_grows hflags 3 h₁.separated h₁.freeApart hzero hroot rfl ha
  -- The page is not in the tree, before the descent and after it.
  have hout : ∀ p, ¬ Reach userFormat {frameOf pml4} (s₁.zeroFrame page).mem 4
      (frameOf pml4) p page := by
    intro p hp
    have hn := node_alloc h.freeApart halloc (fun _ => 0) hp.mem_roots hp.admissible hp.length_le
    exact h.freeApart.apart page hfree _ p (hp.of_node_eq rfl hn.symm)
  have hloose : ¬ InTree (frameOf pml4) (mapWalk (s₁.zeroFrame page) pml4 va freshFlags).2 page := by
    rintro ⟨p, hp⟩
    rcases hp.table_or_leaf with ht | hl
    · rcases hwalk.fresh ht with ht | ⟨hc, -⟩
      · exact hout p (ht.weaken (by decide))
      · exact absurd (htaken.symm.trans hc.2) (by decide)
    · exact hout p (hwalk.leaf_iff.mp hl).reach
  have hnot : ¬ (s₁.zeroFrame page).pmm.Free page := fun hc =>
    absurd (htaken.symm.trans hc.2) (by decide)
  have hclear : (mapWalk (s₁.zeroFrame page) pml4 va freshFlags).2.mem page = fun _ => 0 := by
    refine (hwalk.foreign page hnot fun r' p ht => ?_).trans (s₁.setFrame_self page _)
    obtain rfl : r' = frameOf pml4 := ht.mem_roots
    exact hout p (ht.weaken (by decide))
  have htakes : TakesOnWay (frameOf pml4) va page s
      (mapWalk (s₁.zeroFrame page) pml4 va freshFlags).2 := by
    intro f hf hused
    have hbit : (mapWalk (s₁.zeroFrame page) pml4 va freshFlags).2.pmm.bitmap f = true := by
      refine Bool.eq_true_of_not_eq_false fun hb => hused ⟨?_, hb⟩
      rw [hwalk.total, hext.total]
      exact hf.1
    rcases hgrow.1.used f hbit with hb | ⟨p, ht⟩
    · left
      by_contra hne
      have hb' : s₁.pmm.bitmap f = true := hb
      rw [hbits, Function.update_of_ne hne] at hb'
      exact absurd (hb'.symm.trans hf.2) (by decide)
    · rcases hgrow.1.on_path ht with htw | ⟨-, hp⟩
      · have hn := node_alloc h.freeApart halloc (fun _ => 0) htw.mem_roots htw.admissible
          (htw.length_le.trans (by decide))
        have hts : Table userFormat {frameOf pml4} s.mem (frameOf pml4) p f :=
          htw.of_node_eq rfl hn.symm
        exact absurd (hts.weaken (by decide)) (h.freeApart.apart f hf _ p)
      · exact Or.inr ⟨p, hp, ht⟩
  cases hw : (mapWalk (s₁.zeroFrame page) pml4 va freshFlags).1 with
  | none =>
    rw [pmapMap_of_none hw] at hmap
    subst hmap
    exact ⟨htakes, Or.inr ⟨h₂, hgrow.2 hw⟩⟩
  | some t =>
    rw [pmapMap_of_some (physOf page) hw] at hmap
    subst hmap
    refine ⟨fun f hf hused => ?_, Or.inl ⟨h₂.place hva (hend t hw) hlt (h.free page hfree)
      (hwalk.not_free hnot) hloose hclear, (h₂.leaf_place hva (hend t hw) hlt).mpr
        (Or.inl ⟨rfl, rfl⟩)⟩⟩
    refine (htakes f hf hused).imp_right fun ⟨p, hp, ht⟩ => ⟨p, hp, ?_⟩
    exact (h₂.table_place (hend t hw) hlt).mpr ht

end Mapped

section Loop

variable {s₀ s s' : Vm} {r : Nat} {D : Set (List Idx)} {pml4 va : Word}

/-- The places of a range of pages. -/
def rangePaths (va : Word) (pages : Nat) : Set (List Idx) :=
  {p | ∃ j < pages, p = pagePath (va + BitVec.ofNat 64 (j * 4096))}

theorem rangePaths_zero (va : Word) : rangePaths va 0 = ∅ :=
  Set.eq_empty_of_forall_notMem fun _ ⟨_, hj, _⟩ => Nat.not_lt_zero _ hj

theorem rangePaths_succ (va : Word) (pages : Nat) : rangePaths va (pages + 1) =
    insert (pagePath va) (rangePaths (va + 0x1000) pages) := by
  ext p
  constructor
  · rintro ⟨j, hj, rfl⟩
    cases j with
    | zero =>
      left
      rw [Nat.zero_mul, BitVec.add_zero]
    | succ j =>
      right
      exact ⟨j, by omega, by rw [add_page]⟩
  · rintro (rfl | ⟨j, hj, rfl⟩)
    · exact ⟨0, by omega, by rw [Nat.zero_mul, BitVec.add_zero]⟩
    · exact ⟨j + 1, by omega, by rw [add_page]⟩

/-- The places of a range, by page numbers. -/
theorem mem_rangePaths {base va : Word} {pages : Nat} (hend : base.toNat + pages * 4096 ≤ 2 ^ 47)
    (hva : va.toNat < 2 ^ 47) : pagePath va ∈ rangePaths base pages ↔
      base.toNat / 4096 ≤ va.toNat / 4096 ∧ va.toNat / 4096 < base.toNat / 4096 + pages := by
  have hto : ∀ j < pages, (base + BitVec.ofNat 64 (j * 4096)).toNat = base.toNat + j * 4096 := by
    intro j hj
    rw [BitVec.toNat_add, BitVec.toNat_ofNat]
    omega
  have hiff : ∀ j < pages, (pagePath va = pagePath (base + BitVec.ofNat 64 (j * 4096)) ↔
      va.toNat / 4096 = base.toNat / 4096 + j) := by
    intro j hj
    rw [pagePath_eq_iff (by omega) (by rw [hto j hj]; omega), hto j hj]
    omega
  constructor
  · rintro ⟨j, hj, hp⟩
    have := (hiff j hj).mp hp
    omega
  · rintro ⟨hlow, hhigh⟩
    refine ⟨va.toNat / 4096 - base.toNat / 4096, by omega, ?_⟩
    exact (hiff _ (by omega)).mpr (by omega)

theorem union_rangePaths_succ (D : Set (List Idx)) (va : Word) (pages : Nat) :
    insert (pagePath va) D ∪ rangePaths (va + 0x1000) pages = D ∪ rangePaths va (pages + 1) := by
  rw [rangePaths_succ, Set.insert_union, Set.union_insert]

/-- The loop maps all pages of its range, or it stops short with no page left; it
reports success then only if the last page is the one that is missing. -/
theorem mapFresh_mapped {pages : Nat} {ok : Bool} (h : Mapped s₀ r D s) (hr : frameOf pml4 = r)
    (hva : UserRange va pages) (hrun : mapFresh pml4 pages va s = (ok, s')) :
    ok = true ∧ Mapped s₀ r (D ∪ rangePaths va pages) s' ∨
      ∃ n < pages, Mapped s₀ r (D ∪ rangePaths va n) s' ∧ (∀ f, ¬ s'.pmm.Free f) ∧
        (ok = true → n + 1 = pages) := by
  induction pages generalizing va s D with
  | zero =>
    cases hrun
    exact Or.inl ⟨rfl, by rwa [rangePaths_zero, Set.union_empty]⟩
  | succ pages ih =>
    obtain ⟨hfirst, hrest⟩ := forall_pages_succ hva
    have hempty : D ∪ rangePaths va 0 = D := by rw [rangePaths_zero, Set.union_empty]
    unfold mapFresh at hrun
    cases halloc : allocFrame s with
    | mk page s₁ =>
      rw [halloc] at hrun
      cases page with
      | none =>
        cases hrun
        obtain rfl := allocFrame_none halloc
        refine Or.inr ⟨0, by omega, by rwa [hempty], ?_, fun hc => by cases hc⟩
        exact (allocFrame_none_iff _).mp ⟨_, halloc⟩
      | some page =>
        replace hrun : mapFresh pml4 pages (va + 0x1000)
          (pmapMap (s₁.zeroFrame page) pml4 va (physOf page) freshFlags) = (ok, s') := hrun
        rcases (h.round hr hfirst halloc rfl).2 with ⟨hm, -⟩ | ⟨hm, hnone, -⟩
        · rcases ih hm hrest hrun with ⟨hok, hall⟩ | ⟨n, hn, hall, hno, hlast⟩
          · rw [union_rangePaths_succ] at hall
            exact Or.inl ⟨hok, hall⟩
          · rw [union_rangePaths_succ] at hall
            exact Or.inr ⟨n + 1, by omega, hall, hno, fun hc => congrArg Nat.succ (hlast hc)⟩
        · -- With no page left the next round fails at once.
          refine Or.inr ⟨0, by omega, ?_⟩
          rw [hempty]
          cases pages with
          | zero =>
            obtain ⟨-, rfl⟩ := Prod.mk.inj hrun
            exact ⟨hm, hnone, fun _ => rfl⟩
          | succ pages =>
            obtain ⟨s₂, hs₂⟩ := (allocFrame_none_iff _).mpr hnone
            unfold mapFresh at hrun
            rw [hs₂] at hrun
            cases hrun
            obtain rfl := allocFrame_none hs₂
            exact ⟨hm, hnone, fun hc => by cases hc⟩

end Loop

end Mmix.Proc
