import Mmix.Mm.PageTable

/-!
# Mapping and unmapping a page

What `pmap_map` and `pmap_unmap` do to the tables of a set of address spaces.
The descent of `pmap_map` only adds empty tables taken from the free pages;
the final write changes the frame of one page.
-/

namespace Mmix.Mm

open Forest Option

/-- No page that the allocator may still hand out is a table or a mapped page
of the given address spaces, and every page number fits in an entry. -/
structure FreeApart (roots : Set Nat) (s : Vm) : Prop where
  total_le : s.pmm.totalPages ≤ 2 ^ 40
  apart : ∀ page, s.pmm.Free page → ∀ r p, ¬ Reach userFormat roots s.mem 4 r p page

theorem FreeApart.page_lt {roots : Set Nat} {s : Vm} (h : FreeApart roots s) {page : Nat}
    (hp : s.pmm.Free page) : page < 2 ^ 40 :=
  Nat.lt_of_lt_of_le hp.1 h.total_le

theorem reach_node {roots : Set Nat} {mem : PhysMem} {levels r : Nat} {p : List Idx} {f : Nat}
    (h : Reach userFormat roots mem levels r p f) : node child mem r p = some f :=
  h.at_path

/-- The tables may have grown by formerly free pages, and nothing else that the
address spaces show has changed. -/
structure Extends (roots : Set Nat) (s s' : Vm) : Prop where
  separated : Separated userFormat roots s'.mem
  freeApart : FreeApart roots s'
  pages : ∀ r ∈ roots, ∀ p, Admissible userFormat p → p.length = 4 →
    node child s'.mem r p = node child s.mem r p
  tables : ∀ {r p f}, Table userFormat roots s.mem r p f → Table userFormat roots s'.mem r p f
  fresh : ∀ {r p f}, Table userFormat roots s'.mem r p f →
    Table userFormat roots s.mem r p f ∨ s.pmm.Free f ∧ s'.pmm.bitmap f = true ∧ f ≠ 0
  used : ∀ f, s.pmm.bitmap f = true → s'.pmm.bitmap f = true
  total : s'.pmm.totalPages = s.pmm.totalPages
  foreign : ∀ f, ¬ s.pmm.Free f → (∀ r p, ¬ Table userFormat roots s.mem r p f) →
    s'.mem f = s.mem f
  upper : ∀ r ∈ roots, ∀ i : Idx, 256 ≤ i.val → s'.mem r i = s.mem r i
  rest : s' = { s with pmm := s'.pmm, mem := s'.mem }

namespace Extends

variable {roots : Set Nat} {s s' s'' : Vm}

theorem refl (hsep : Separated userFormat roots s.mem) (hfree : FreeApart roots s) :
    Extends roots s s where
  separated := hsep
  freeApart := hfree
  pages := fun _ _ _ _ _ => rfl
  tables := id
  fresh := Or.inl
  used := fun _ => id
  total := rfl
  foreign := fun _ _ _ => rfl
  upper := fun _ _ _ _ => rfl
  rest := rfl

theorem free (h : Extends roots s s') {f : Nat} (hf : s'.pmm.Free f) : s.pmm.Free f := by
  refine ⟨h.total ▸ hf.1, ?_⟩
  cases hb : s.pmm.bitmap f with
  | false => rfl
  | true => exact (Bool.false_ne_true (hf.2.symm.trans (h.used f hb))).elim

theorem not_free (h : Extends roots s s') {f : Nat} (hf : ¬ s.pmm.Free f) :
    ¬ s'.pmm.Free f := fun h' => hf (h.free h')

theorem leaf_iff (h : Extends roots s s') {r : Nat} {p : List Idx} {f : Nat} :
    Leaf userFormat roots s'.mem r p f ↔ Leaf userFormat roots s.mem r p f := by
  constructor
  · intro hl
    exact ⟨hl.mem_roots, hl.admissible, hl.length_eq,
      (h.pages r hl.mem_roots p hl.admissible hl.length_eq).symm.trans hl.at_path⟩
  · intro hl
    exact ⟨hl.mem_roots, hl.admissible, hl.length_eq,
      (h.pages r hl.mem_roots p hl.admissible hl.length_eq).trans hl.at_path⟩

theorem trans (h : Extends roots s s') (h' : Extends roots s' s'') :
    Extends roots s s'' where
  separated := h'.separated
  freeApart := h'.freeApart
  pages := fun r hr p ha hl => (h'.pages r hr p ha hl).trans (h.pages r hr p ha hl)
  tables := fun ht => h'.tables (h.tables ht)
  fresh := fun ht => by
    rcases h'.fresh ht with ht' | ⟨hfree, hused⟩
    · exact (h.fresh ht').imp_right fun hf => ⟨hf.1, h'.used _ hf.2.1, hf.2.2⟩
    · exact Or.inr ⟨h.free hfree, hused⟩
  used := fun f hf => h'.used f (h.used f hf)
  total := h'.total.trans h.total
  foreign := fun f hfree hnot => by
    rw [h'.foreign f (h.not_free hfree), h.foreign f hfree hnot]
    intro r p ht
    rcases h.fresh ht with ht' | ⟨hf, -⟩
    · exact hnot r p ht'
    · exact hfree hf
  upper := fun r hr i hi => (h'.upper r hr i hi).trans (h.upper r hr i hi)
  rest := by rw [h'.rest, h.rest]

end Extends

section Alloc

variable {s s' : Vm} {page : Nat}

/-- What `pmm_alloc(1)` does to the whole state. -/
theorem allocFrame_some (h : allocFrame s = (some page, s')) :
    s.pmm.Free page ∧ s'.pmm.totalPages = s.pmm.totalPages ∧
      s'.pmm.bitmap = Function.update s.pmm.bitmap page true ∧
      s' = { s with pmm := s'.pmm } := by
  unfold allocFrame at h
  cases hp : pmmAlloc 1 s.pmm with
  | mk page' pmm =>
    rw [hp] at h
    cases h
    obtain ⟨hfree, htotal, hbits⟩ := pmmAlloc_one_some hp
    exact ⟨hfree, htotal, hbits, rfl⟩

theorem allocFrame_none (h : allocFrame s = (none, s')) : s' = s := by
  unfold allocFrame at h
  cases hp : pmmAlloc 1 s.pmm with
  | mk page' pmm =>
    rw [hp] at h
    cases h
    rw [pmmAlloc_none hp]

theorem allocFrame_ctl (s : Vm) : (allocFrame s).2.ctl = s.ctl := rfl

/-- Filling a page taken from the allocator moves no table and no page. -/
theorem node_alloc {roots : Set Nat} (hfree : FreeApart roots s)
    (h : allocFrame s = (some page, s')) (row : Idx → Word) {r : Nat} (hr : r ∈ roots)
    {p : List Idx} (ha : Admissible userFormat p) (hl : p.length ≤ userFormat.depth + 1) :
    node userFormat.child (s'.setFrame page row).mem r p = node userFormat.child s.mem r p := by
  obtain ⟨hp, -, -, hrest⟩ := allocFrame_some h
  apply node_eq_of_agree _ hr ha hl
  intro r' p' f ht
  have hne : f ≠ page := by
    rintro rfl
    exact hfree.apart f hp r' p'
      ⟨ht.mem_roots, ht.admissible, ht.length_le.trans (by decide), ht.at_path⟩
  rw [Vm.setFrame_of_ne _ _ hne, hrest]

/-- Taking a page and giving it any content leaves every table as it was. -/
theorem extends_alloc {roots : Set Nat} (hsep : Separated userFormat roots s.mem)
    (hfree : FreeApart roots s) (h : allocFrame s = (some page, s')) (row : Idx → Word) :
    Extends roots s (s'.setFrame page row) := by
  obtain ⟨hp, htotal, hbits, hrest⟩ := allocFrame_some h
  have hnode : ∀ r ∈ roots, ∀ p, Admissible userFormat p → p.length ≤ userFormat.depth + 1 →
      node userFormat.child (s'.setFrame page row).mem r p = node userFormat.child s.mem r p :=
    fun r hr p ha hl => node_alloc hfree h row hr ha hl
  have hmem : ∀ f, ¬ s.pmm.Free f → (s'.setFrame page row).mem f = s.mem f := by
    intro f hf
    have hne : f ≠ page := by
      rintro rfl
      exact hf hp
    rw [Vm.setFrame_of_ne _ _ hne, hrest]
  refine
    { separated := hsep.congr hnode
      freeApart := ⟨htotal.trans_le hfree.total_le, ?_⟩
      pages := fun r hr p ha hl => hnode r hr p ha hl.le
      tables := fun ht => (reach_congr hnode (by decide) _ _ _).mpr ht
      fresh := fun ht => Or.inl ((reach_congr hnode (by decide) _ _ _).mp ht)
      used := ?_
      total := htotal
      foreign := fun f hf _ => hmem f hf
      upper := ?_
      rest := by rw [hrest]; rfl }
  · intro f hf r p hr
    have hbit : Function.update s.pmm.bitmap page true f = false := hbits ▸ hf.2
    have hne : f ≠ page := by
      rintro rfl
      simp at hbit
    rw [Function.update_of_ne hne] at hbit
    exact hfree.apart f ⟨htotal ▸ hf.1, hbit⟩ r p ((reach_congr hnode le_rfl _ _ _).mp hr)
  · intro f hf
    change s'.pmm.bitmap f = true
    rw [hbits]
    by_cases hfp : f = page
    · simp [hfp]
    · rwa [Function.update_of_ne hfp]
  · intro r hr i hi
    rw [hmem r]
    intro hfr
    exact hfree.apart r hfr r [] ⟨hr, admissible_nil _, by decide, rfl⟩

end Alloc

section Link

variable {roots : Set Nat} {s s₁ : Vm} {r table page : Nat} {q : List Idx}

/-- Linking a freshly allocated empty table under an absent entry adds that
table and nothing else. -/
theorem node_link (hsep : Separated userFormat roots s.mem) (hfree : FreeApart roots s)
    (ht : Table userFormat roots s.mem r q table) {i : Idx} {w : Word}
    (habsent : child (s.mem table i) = none) (halloc : allocFrame s = (some page, s₁))
    (hw : child w = some page) {r' : Nat} (hr' : r' ∈ roots) {p : List Idx}
    (ha : Admissible userFormat p) (hl : p.length ≤ userFormat.depth + 1) :
    node child ((s₁.zeroFrame page).setEntry table i w).mem r' p =
      if r' = r ∧ p = q ++ [i] then some page else node child s.mem r' p := by
  obtain ⟨hp, -, -, hrest⟩ := allocFrame_some halloc
  have h₁ : Extends roots s (s₁.zeroFrame page) := extends_alloc hsep hfree halloc _
  have hne : page ≠ table := by
    rintro rfl
    exact hfree.apart page hp r q
      ⟨ht.mem_roots, ht.admissible, ht.length_le.trans (by decide), ht.at_path⟩
  have habsent₁ : child ((s₁.zeroFrame page).mem table i) = none := by
    rw [Vm.zeroFrame, Vm.setFrame_of_ne _ _ hne.symm, hrest]
    exact habsent
  have hempty : ∀ j, child ((s₁.zeroFrame page).mem page j) = none := by
    intro j
    rw [Vm.zeroFrame, Vm.setFrame_self]
    exact child_zero
  have hlink := node_setCell_link h₁.separated (h₁.tables ht) habsent₁ hw hne hempty hr' ha hl
  have halloc' : node child (s₁.zeroFrame page).mem r' p = node child s.mem r' p :=
    node_alloc hfree halloc _ hr' ha hl
  exact hlink.trans (by rw [userFormat_child, halloc'])

/-- Linking a freshly allocated empty table extends the tables. -/
theorem extends_link (hsep : Separated userFormat roots s.mem) (hfree : FreeApart roots s)
    (ht : Table userFormat roots s.mem r q table) (hq : q.length < 3) {i : Idx} {w : Word}
    (ha : Admissible userFormat (q ++ [i])) (habsent : child (s.mem table i) = none)
    (halloc : allocFrame s = (some page, s₁)) (hzero : page ≠ 0) (hw : child w = some page) :
    Extends roots s ((s₁.zeroFrame page).setEntry table i w) ∧
      Table userFormat roots ((s₁.zeroFrame page).setEntry table i w).mem r (q ++ [i]) page := by
  obtain ⟨hp, htotal, hbits, hrest⟩ := allocFrame_some halloc
  have h₁ : Extends roots s (s₁.zeroFrame page) := extends_alloc hsep hfree halloc _
  have hlen : (q ++ [i]).length ≤ 3 := by
    simp only [List.length_append, List.length_singleton]
    omega
  have hnode : ∀ r' ∈ roots, ∀ p, Admissible userFormat p → p.length ≤ userFormat.depth + 1 →
      node child ((s₁.zeroFrame page).setEntry table i w).mem r' p =
        if r' = r ∧ p = q ++ [i] then some page else node child s.mem r' p :=
    fun r' hr' p ha' hl => node_link hsep hfree ht habsent halloc hw hr' ha' hl
  -- A cell of the new memory is the new table or was a cell before.
  have hback : ∀ {levels r' p f}, levels ≤ 4 →
      Reach userFormat roots ((s₁.zeroFrame page).setEntry table i w).mem levels r' p f →
      (r' = r ∧ p = q ++ [i] ∧ f = page) ∨
        (¬ (r' = r ∧ p = q ++ [i]) ∧ Reach userFormat roots s.mem levels r' p f) := by
    intro levels r' p f hle hr
    have heq := hnode r' hr.mem_roots p hr.admissible (hr.length_le.trans hle)
    by_cases hc : r' = r ∧ p = q ++ [i]
    · rw [if_pos hc] at heq
      exact Or.inl ⟨hc.1, hc.2, (some.inj (heq.symm.trans hr.at_path)).symm⟩
    · rw [if_neg hc] at heq
      exact Or.inr ⟨hc, hr.mem_roots, hr.admissible, hr.length_le, heq.symm.trans hr.at_path⟩
  have hapart : ∀ {levels r' p}, levels ≤ 4 → ¬ Reach userFormat roots s.mem levels r' p page :=
    fun hle hr => hfree.apart page hp _ _
      ⟨hr.mem_roots, hr.admissible, hr.length_le.trans hle, hr.at_path⟩
  have hrow : ∀ g, g ≠ table →
      ((s₁.zeroFrame page).setEntry table i w).mem g = (s₁.zeroFrame page).mem g :=
    fun g hg => setCell_row_of_ne _ i w hg
  have hnew : Table userFormat roots ((s₁.zeroFrame page).setEntry table i w).mem r
      (q ++ [i]) page :=
    ⟨ht.mem_roots, ha, hlen, (hnode r ht.mem_roots _ ha (hlen.trans (by decide))).trans
      (if_pos ⟨rfl, rfl⟩)⟩
  refine ⟨?_, hnew⟩
  refine
    { separated := ⟨?_, ?_⟩
      freeApart := ⟨h₁.freeApart.total_le, ?_⟩
      pages := ?_
      tables := ?_
      fresh := ?_
      used := h₁.used
      total := h₁.total
      foreign := ?_
      upper := ?_
      rest := by rw [hrest]; rfl }
  · intro r₁ p₁ r₂ p₂ f ht₁ ht₂
    rcases hback (by decide) ht₁ with ⟨rfl, rfl, rfl⟩ | ⟨-, hs₁⟩
    · rcases hback (by decide) ht₂ with ⟨rfl, rfl, -⟩ | ⟨-, hs₂⟩
      · exact ⟨rfl, rfl⟩
      · exact absurd hs₂ (hapart (by decide))
    · rcases hback (by decide) ht₂ with ⟨rfl, rfl, rfl⟩ | ⟨-, hs₂⟩
      · exact absurd hs₁ (hapart (by decide))
      · exact hsep.table_unique hs₁ hs₂
  · intro r₁ p₁ r₂ p₂ f ht₁ hleaf
    rcases hback (Nat.le_refl 4) hleaf.reach with ⟨rfl, rfl, rfl⟩ | ⟨-, hs₂⟩
    · have := hleaf.length_eq
      simp only [userFormat_depth] at this
      omega
    · have hleaf' : Leaf userFormat roots s.mem r₂ p₂ f :=
        ⟨hs₂.mem_roots, hs₂.admissible, hleaf.length_eq, hs₂.at_path⟩
      rcases hback (by decide) ht₁ with ⟨rfl, rfl, rfl⟩ | ⟨-, hs₁⟩
      · exact hapart le_rfl hleaf'.reach
      · exact hsep.leaf_ne_table hs₁ hleaf'
  · intro f hf r' p hr
    rcases hback le_rfl hr with ⟨-, -, rfl⟩ | ⟨-, hr'⟩
    · have hbit : Function.update s.pmm.bitmap f true f = false := hbits ▸ hf.2
      simp at hbit
    · exact hfree.apart f (h₁.free hf) r' p hr'
  · intro r' hr' p ha' hl
    rw [hnode r' hr' p ha' hl.le, if_neg]
    rintro ⟨-, rfl⟩
    omega
  · intro r' p f ht'
    refine ⟨ht'.mem_roots, ht'.admissible, ht'.length_le, ?_⟩
    rw [userFormat_child, hnode r' ht'.mem_roots p ht'.admissible
      (ht'.length_le.trans (by decide)), if_neg]
    · exact ht'.at_path
    · rintro ⟨rfl, rfl⟩
      have hsome := reach_node ht'
      rw [node_concat, reach_node ht, bind_some, habsent] at hsome
      cases hsome
  · intro r' p f ht'
    rcases hback (by decide) ht' with ⟨-, -, rfl⟩ | ⟨-, ht'⟩
    · refine Or.inr ⟨hp, ?_, hzero⟩
      change s₁.pmm.bitmap f = true
      rw [hbits, Function.update_self]
    · exact Or.inl ht'
  · intro f hf hnot
    rw [hrow f fun he => hnot r q (he ▸ ht)]
    exact h₁.foreign f hf hnot
  · intro r' hr' j hj
    rw [← h₁.upper r' hr' j hj]
    apply setCell_of_ne
    rintro ⟨rfl, rfl⟩
    -- The written word of a root lies in its user half.
    obtain ⟨rfl, rfl⟩ := hsep.table_unique ht
      ⟨hr', admissible_nil _, by decide, rfl⟩
    have : j.val < 256 := by simpa [Admissible, userFormat] using ha
    omega

end Link

section Walk

variable {roots : Set Nat} {va flags : Word} {r : Nat}

theorem tableAlloc_eq (s : Vm) : tableAlloc s =
    match allocFrame s with
    | (none, s') => (0, s')
    | (some page, s') => (physOf page, s'.zeroFrame page) := rfl

/-- The entry that `pmap_map` makes for a new table. -/
def tableEntry (page : Nat) (flags : Word) : Word :=
  physOf page ||| ptePresent ||| pteWrite ||| flags

/-- One level of the descent follows a present entry, or stops because no page
is left, or links a new table. -/
theorem pmapMapWalk_succ (va flags : Word) (level table : Nat) (s : Vm) :
    (s.mem table (idx va (level + 1)) &&& ptePresent ≠ 0 ∧
      pmapMapWalk va flags (level + 1) table s =
        pmapMapWalk va flags level (target (s.mem table (idx va (level + 1)))) s) ∨
    (s.mem table (idx va (level + 1)) &&& ptePresent = 0 ∧ allocFrame s = (none, s) ∧
      pmapMapWalk va flags (level + 1) table s = (none, s)) ∨
    ∃ page s₁, s.mem table (idx va (level + 1)) &&& ptePresent = 0 ∧
      allocFrame s = (some page, s₁) ∧
      (physOf page = 0 ∧ pmapMapWalk va flags (level + 1) table s = (none, s₁.zeroFrame page) ∨
        physOf page ≠ 0 ∧ pmapMapWalk va flags (level + 1) table s =
          pmapMapWalk va flags level (target (tableEntry page flags))
            ((s₁.zeroFrame page).setEntry table (idx va (level + 1)) (tableEntry page flags))) := by
  by_cases hpres : s.mem table (idx va (level + 1)) &&& ptePresent = 0
  · cases halloc : allocFrame s with
    | mk page s₁ =>
      cases page with
      | none =>
        obtain rfl := allocFrame_none halloc
        refine Or.inr (Or.inl ⟨hpres, rfl, ?_⟩)
        simp only [pmapMapWalk, tableAlloc_eq, halloc]
        rw [if_pos hpres, if_pos trivial]
      | some page =>
        refine Or.inr (Or.inr ⟨page, s₁, hpres, rfl, ?_⟩)
        simp only [pmapMapWalk, tableAlloc_eq, halloc]
        rw [if_pos hpres]
        by_cases hz : physOf page = 0
        · exact Or.inl ⟨hz, if_pos hz⟩
        · exact Or.inr ⟨hz, if_neg hz⟩
  · refine Or.inl ⟨hpres, ?_⟩
    simp only [pmapMapWalk]
    rw [if_neg hpres]

theorem child_tableEntry {page : Nat} (h : page < 2 ^ 40) (hf : flags &&& pteAddrMask = 0) :
    child (tableEntry page flags) = some page :=
  child_table_entry h hf

theorem target_tableEntry {page : Nat} (h : page < 2 ^ 40) (hf : flags &&& pteAddrMask = 0) :
    target (tableEntry page flags) = page := by
  have hentry := child_tableEntry h hf
  rw [child_eq_some] at hentry
  · exact some.inj hentry
  · rw [tableEntry, BitVec.or_assoc (physOf page ||| ptePresent)]
    exact or_ptePresent_and _ _

/-- The table below a present entry. -/
theorem table_next {table : Nat} {q : List Idx} {s : Vm} {i : Idx}
    (ht : Table userFormat roots s.mem r q table) (hq : q.length < 3)
    (ha : Admissible userFormat (q ++ [i])) (hpres : s.mem table i &&& ptePresent ≠ 0) :
    Table userFormat roots s.mem r (q ++ [i]) (target (s.mem table i)) := by
  refine ⟨ht.mem_roots, ha, ?_, ?_⟩
  · simp only [userFormat_depth, List.length_append, List.length_singleton]
    omega
  · rw [userFormat_child, node_concat, reach_node ht]
    exact child_eq_some hpres

theorem append_tablePath_succ (q : List Idx) (va : Word) (level : Nat) :
    q ++ tablePath va (level + 1) = (q ++ [idx va (level + 1)]) ++ tablePath va level := by
  simp [tablePath]

/-- The descent of `pmap_map` extends the tables; when it succeeds it ends at
the last-level table on the address's path. -/
theorem pmapMapWalk_spec (hf : flags &&& pteAddrMask = 0) (level : Nat) {table : Nat}
    {q : List Idx} {s : Vm} (hsep : Separated userFormat roots s.mem)
    (hfree : FreeApart roots s) (ht : Table userFormat roots s.mem r q table)
    (hq : q.length + level = 3) (ha : Admissible userFormat (q ++ tablePath va level)) :
    Extends roots s (pmapMapWalk va flags level table s).2 ∧
      ∀ t, (pmapMapWalk va flags level table s).1 = some t →
        Table userFormat roots (pmapMapWalk va flags level table s).2.mem r
          (q ++ tablePath va level) t := by
  induction level generalizing table q s with
  | zero =>
    refine ⟨Extends.refl hsep hfree, ?_⟩
    intro t h
    cases h
    simp only [tablePath, List.append_nil]
    exact ht
  | succ level ih =>
    rw [append_tablePath_succ] at ha ⊢
    have hq' : (q ++ [idx va (level + 1)]).length + level = 3 := by
      simp only [List.length_append, List.length_singleton]
      omega
    rcases pmapMapWalk_succ va flags level table s with
      ⟨hpres, hw⟩ | ⟨-, -, hw⟩ | ⟨page, s₁, hpres, halloc, ⟨-, hw⟩ | ⟨hz, hw⟩⟩
    · rw [hw]
      exact ih hsep hfree (table_next ht (by omega) ha.init hpres) hq' ha
    · rw [hw]
      exact ⟨Extends.refl hsep hfree, fun t h => by cases h⟩
    · rw [hw]
      exact ⟨extends_alloc hsep hfree halloc _, fun t h => by cases h⟩
    · have hlt := hfree.page_lt (allocFrame_some halloc).1
      rw [hw, target_tableEntry hlt hf]
      obtain ⟨hext, hnew⟩ := extends_link hsep hfree ht (by omega) ha.init
        (child_eq_none.mpr hpres) halloc
        (fun h0 => hz ((physOf_eq_zero hlt).mpr h0)) (child_tableEntry hlt hf)
      obtain ⟨hext', hend⟩ := ih hext.separated hext.freeApart hnew hq' ha
      exact ⟨hext.trans hext', hend⟩

/-- The tables of `pmap_map` before its final write, and the outcome of the
descent. -/
abbrev mapWalk (s : Vm) (pml4Phys va flags : Word) : Option Nat × Vm :=
  pmapMapWalk va flags 3 (frameOf pml4Phys) s

theorem mapWalk_spec {s : Vm} {pml4Phys : Word} (hf : flags &&& pteAddrMask = 0)
    (hsep : Separated userFormat roots s.mem) (hfree : FreeApart roots s)
    (hr : frameOf pml4Phys ∈ roots) (hva : UserVa va) :
    Extends roots s (mapWalk s pml4Phys va flags).2 ∧
      ∀ t, (mapWalk s pml4Phys va flags).1 = some t →
        Table userFormat roots (mapWalk s pml4Phys va flags).2.mem (frameOf pml4Phys)
          (tablePath va 3) t := by
  have hroot : Table userFormat roots s.mem (frameOf pml4Phys) [] (frameOf pml4Phys) :=
    ⟨hr, admissible_nil _, by decide, rfl⟩
  exact pmapMapWalk_spec hf 3 hsep hfree hroot rfl (admissible_pagePath hva).init

/-- A descent through tables that are all present changes nothing. -/
theorem pmapMapWalk_of_node (level : Nat) {table t : Nat} {s : Vm}
    (h : node child s.mem table (tablePath va level) = some t) :
    pmapMapWalk va flags level table s = (some t, s) := by
  induction level generalizing table with
  | zero =>
    cases h
    rfl
  | succ level ih =>
    rw [tablePath, node_cons] at h
    obtain ⟨next, hnext, hrest⟩ := bind_eq_some_iff.mp h
    have hpres : s.mem table (idx va (level + 1)) &&& ptePresent ≠ 0 := by
      intro hz
      rw [child_eq_none.mpr hz] at hnext
      cases hnext
    rw [child_eq_some hpres] at hnext
    simp only [pmapMapWalk]
    rw [if_neg hpres, some.inj hnext]
    exact ih hrest

/-- The descent of `pmap_map` changes nothing but the memory and the allocator. -/
theorem pmapMapWalk_ctl (va flags : Word) (level table : Nat) (s : Vm) :
    (pmapMapWalk va flags level table s).2.ctl = s.ctl := by
  induction level generalizing table s with
  | zero => rfl
  | succ level ih =>
    have hctl := allocFrame_ctl s
    rcases pmapMapWalk_succ va flags level table s with
      ⟨-, hw⟩ | ⟨-, -, hw⟩ | ⟨page, s₁, -, halloc, ⟨-, hw⟩ | ⟨-, hw⟩⟩
    · rw [hw]
      exact ih _ _
    · rw [hw]
    · rw [halloc] at hctl
      rw [hw]
      exact hctl
    · rw [halloc] at hctl
      rw [hw, ih]
      exact hctl

theorem pmapMap_ctl (s : Vm) (pml4Phys va pa flags : Word) :
    (pmapMap s pml4Phys va pa flags).ctl = s.ctl := by
  have hctl := pmapMapWalk_ctl va flags 3 (frameOf pml4Phys) s
  unfold pmapMap
  cases hw : pmapMapWalk va flags 3 (frameOf pml4Phys) s with
  | mk t s₁ =>
    rw [hw] at hctl
    cases t with
    | none => exact hctl
    | some t => exact hctl

theorem pmapMap_of_some {s : Vm} {pml4Phys : Word} (pa : Word) {t : Nat}
    (hw : (mapWalk s pml4Phys va flags).1 = some t) :
    pmapMap s pml4Phys va pa flags =
      (mapWalk s pml4Phys va flags).2.setEntry t (idx va 0)
        ((pa &&& pteAddrMask) ||| ptePresent ||| flags) := by
  unfold pmapMap
  rw [show pmapMapWalk va flags 3 (frameOf pml4Phys) s =
    (some t, (mapWalk s pml4Phys va flags).2) from Prod.ext hw rfl]

/-- A failed `pmap_map` stops with the extended tables. -/
theorem pmapMap_of_none {s : Vm} {pml4Phys pa : Word}
    (hw : (mapWalk s pml4Phys va flags).1 = none) :
    pmapMap s pml4Phys va pa flags = (mapWalk s pml4Phys va flags).2 := by
  unfold pmapMap
  rw [show pmapMapWalk va flags 3 (frameOf pml4Phys) s =
    (none, (mapWalk s pml4Phys va flags).2) from Prod.ext hw rfl]

/-- A successful `pmap_map` moves the mapped page to its new frame and leaves
every other table and page where the descent left it. -/
theorem node_pmapMap {s : Vm} {pml4Phys : Word} (pa : Word) {t : Nat}
    (hf : flags &&& pteAddrMask = 0) (hsep : Separated userFormat roots s.mem) (hfree : FreeApart roots s)
    (hr : frameOf pml4Phys ∈ roots) (hva : UserVa va)
    (hw : (mapWalk s pml4Phys va flags).1 = some t)
    (hr' : r ∈ roots) {p : List Idx} (ha : Admissible userFormat p) (hl : p.length ≤ 4) :
    node child (pmapMap s pml4Phys va pa flags).mem r p =
      if r = frameOf pml4Phys ∧ p = pagePath va then some (target pa)
      else node child (mapWalk s pml4Phys va flags).2.mem r p := by
  obtain ⟨hext, hend⟩ := mapWalk_spec hf hsep hfree hr hva
  rw [pmapMap_of_some pa hw]
  have hlast := node_setCell_last hext.separated (hend t hw) (tablePath_length va 3) (idx va 0)
    ((pa &&& pteAddrMask) ||| ptePresent ||| flags) hr' ha hl
  rw [userFormat_child, child_leaf_entry pa hf] at hlast
  exact hlast

/-- A successful `pmap_map` has the tables of its descent. -/
theorem table_pmapMap {s : Vm} {pml4Phys : Word} (pa : Word) {t : Nat}
    (hf : flags &&& pteAddrMask = 0) (hsep : Separated userFormat roots s.mem)
    (hfree : FreeApart roots s) (hr : frameOf pml4Phys ∈ roots) (hva : UserVa va)
    (hw : (mapWalk s pml4Phys va flags).1 = some t) (p : List Idx) (f : Nat) :
    Table userFormat roots (pmapMap s pml4Phys va pa flags).mem r p f ↔
      Table userFormat roots (mapWalk s pml4Phys va flags).2.mem r p f := by
  have hnode : ∀ hr' : r ∈ roots, Admissible userFormat p → p.length ≤ 3 →
      node child (pmapMap s pml4Phys va pa flags).mem r p =
        node child (mapWalk s pml4Phys va flags).2.mem r p := by
    intro hr' ha hl
    rw [node_pmapMap pa hf hsep hfree hr hva hw hr' ha (by omega), if_neg]
    rintro ⟨-, rfl⟩
    rw [pagePath_length] at hl
    omega
  constructor
  · intro h
    exact ⟨h.mem_roots, h.admissible, h.length_le,
      (hnode h.mem_roots h.admissible h.length_le).symm.trans h.at_path⟩
  · intro h
    exact ⟨h.mem_roots, h.admissible, h.length_le,
      (hnode h.mem_roots h.admissible h.length_le).trans h.at_path⟩

/-- The mapped pages after a successful `pmap_map`. -/
theorem leaf_pmapMap {s : Vm} {pml4Phys : Word} (pa : Word) {t : Nat}
    (hf : flags &&& pteAddrMask = 0) (hsep : Separated userFormat roots s.mem)
    (hfree : FreeApart roots s) (hr : frameOf pml4Phys ∈ roots) (hva : UserVa va)
    (hw : (mapWalk s pml4Phys va flags).1 = some t) (p : List Idx) (f : Nat) :
    Leaf userFormat roots (pmapMap s pml4Phys va pa flags).mem r p f ↔
      (r = frameOf pml4Phys ∧ p = pagePath va ∧ f = target pa) ∨
        (¬ (r = frameOf pml4Phys ∧ p = pagePath va) ∧ Leaf userFormat roots s.mem r p f) := by
  have hext := (mapWalk_spec hf hsep hfree hr hva).1
  have hnode : ∀ hr' : r ∈ roots, Admissible userFormat p → p.length = 4 →
      node child (pmapMap s pml4Phys va pa flags).mem r p =
        if r = frameOf pml4Phys ∧ p = pagePath va then some (target pa)
        else node child s.mem r p := by
    intro hr' ha hl
    rw [node_pmapMap pa hf hsep hfree hr hva hw hr' ha hl.le, hext.pages r hr' p ha hl]
  by_cases hc : r = frameOf pml4Phys ∧ p = pagePath va
  · constructor
    · intro h
      have hn := hnode h.mem_roots h.admissible h.length_eq
      rw [if_pos hc] at hn
      exact Or.inl ⟨hc.1, hc.2, some.inj (h.at_path.symm.trans hn)⟩
    · rintro (⟨rfl, rfl, rfl⟩ | ⟨hnot, -⟩)
      · exact ⟨hr, admissible_pagePath hva, pagePath_length va,
          (hnode hr (admissible_pagePath hva) (pagePath_length va)).trans (if_pos ⟨rfl, rfl⟩)⟩
      · exact absurd hc hnot
  · constructor
    · intro h
      have hn := hnode h.mem_roots h.admissible h.length_eq
      rw [if_neg hc] at hn
      exact Or.inr ⟨hc, h.mem_roots, h.admissible, h.length_eq, hn.symm.trans h.at_path⟩
    · rintro (⟨hr', hp, -⟩ | ⟨-, h⟩)
      · exact absurd ⟨hr', hp⟩ hc
      · have hn := hnode h.mem_roots h.admissible h.length_eq
        rw [if_neg hc] at hn
        exact ⟨h.mem_roots, h.admissible, h.length_eq, hn.trans h.at_path⟩

/-- The tree stays separated exactly when the mapped frame is not a table. -/
theorem separated_pmapMap_iff {s : Vm} {pml4Phys : Word} (pa : Word) {t : Nat}
    (hf : flags &&& pteAddrMask = 0) (hsep : Separated userFormat roots s.mem)
    (hfree : FreeApart roots s) (hr : frameOf pml4Phys ∈ roots) (hva : UserVa va)
    (hw : (mapWalk s pml4Phys va flags).1 = some t) :
    Separated userFormat roots (pmapMap s pml4Phys va pa flags).mem ↔
      ∀ r p, ¬ Table userFormat roots (pmapMap s pml4Phys va pa flags).mem r p (target pa) := by
  have hext := (mapWalk_spec hf hsep hfree hr hva).1
  constructor
  · intro h r p htab
    exact h.leaf_ne_table htab
      ((leaf_pmapMap pa hf hsep hfree hr hva hw _ _).mpr (Or.inl ⟨rfl, rfl, rfl⟩))
  · intro h
    refine ⟨fun h₁ h₂ => ?_, fun h₁ h₂ => ?_⟩
    · exact hext.separated.table_unique
        ((table_pmapMap pa hf hsep hfree hr hva hw _ _).mp h₁)
        ((table_pmapMap pa hf hsep hfree hr hva hw _ _).mp h₂)
    · rcases (leaf_pmapMap pa hf hsep hfree hr hva hw _ _).mp h₂ with
        ⟨-, -, rfl⟩ | ⟨-, hleaf⟩
      · exact h _ _ h₁
      · exact hext.separated.leaf_ne_table
          ((table_pmapMap pa hf hsep hfree hr hva hw _ _).mp h₁) (hext.leaf_iff.mpr hleaf)

/-- `pmap_unmap` empties its page and moves nothing else. -/
theorem node_pmapUnmap {s : Vm} {pml4Phys : Word} (hsep : Separated userFormat roots s.mem)
    (hr : frameOf pml4Phys ∈ roots) (hva : UserVa va) (hr' : r ∈ roots) {p : List Idx}
    (ha : Admissible userFormat p) (hl : p.length ≤ 4) :
    node child (pmapUnmap s pml4Phys va).mem r p =
      if r = frameOf pml4Phys ∧ p = pagePath va then none else node child s.mem r p := by
  unfold pmapUnmap pmapPte
  rw [pmapPteWalk_eq]
  cases hn : node child s.mem (frameOf pml4Phys) (tablePath va 3) with
  | none =>
    simp only [map_none]
    by_cases hc : r = frameOf pml4Phys ∧ p = pagePath va
    · rw [if_pos hc, hc.1, hc.2, pagePath, node_concat, hn]
      rfl
    · rw [if_neg hc]
  | some t =>
    have ht : Table userFormat roots s.mem (frameOf pml4Phys) (tablePath va 3) t :=
      ⟨hr, (admissible_pagePath hva).init, (tablePath_length va 3).le, hn⟩
    have hlast := node_setCell_last hsep ht (tablePath_length va 3) (idx va 0) 0 hr' ha hl
    rw [userFormat_child, child_zero] at hlast
    exact hlast

/-- Unmapping keeps the tables and drops the page. -/
theorem separated_pmapUnmap {s : Vm} {pml4Phys : Word}
    (hsep : Separated userFormat roots s.mem) (hr : frameOf pml4Phys ∈ roots)
    (hva : UserVa va) : Separated userFormat roots (pmapUnmap s pml4Phys va).mem := by
  have hback : ∀ {levels r p f}, levels ≤ 4 →
      Reach userFormat roots (pmapUnmap s pml4Phys va).mem levels r p f →
      Reach userFormat roots s.mem levels r p f := by
    intro levels r p f hle h
    have hn := node_pmapUnmap hsep hr hva h.mem_roots h.admissible (h.length_le.trans hle)
    by_cases hc : r = frameOf pml4Phys ∧ p = pagePath va
    · rw [if_pos hc, reach_node h] at hn
      cases hn
    · rw [if_neg hc] at hn
      exact ⟨h.mem_roots, h.admissible, h.length_le, hn.symm.trans h.at_path⟩
  refine ⟨fun h₁ h₂ => hsep.table_unique (hback (by decide) h₁) (hback (by decide) h₂),
    fun h₁ h₂ => ?_⟩
  have h₂' := hback (Nat.le_refl 4) h₂.reach
  exact hsep.leaf_ne_table (hback (by decide) h₁)
    ⟨h₂'.mem_roots, h₂'.admissible, h₂.length_eq, h₂'.at_path⟩

end Walk

end Mmix.Mm
