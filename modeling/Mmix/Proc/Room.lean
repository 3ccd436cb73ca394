import Mmix.Proc.Fresh

/-!
# Room for fresh pages

A range of fresh pages needs a free page for each of its pages and for each table that
is missing on the way to one of them. With so many free pages the loop that maps the
range succeeds, and with fewer it leaves a page unmapped.
-/

namespace Mmix.Proc

open Mm Forest BitVec Set

/-- The places that are missing for the pages `A`: the pages themselves, and the tables
on the way to them. -/
def newPaths (s : Vm) (r : Nat) (A : Set (List Idx)) : Set (List Idx) :=
  {p | (∃ d ∈ A, p <+: d) ∧ node child s.mem r p = none}

/-- All pages taken since the first state are at places that were missing there. -/
def Spent (s₀ : Vm) (r : Nat) (A : Set (List Idx)) (s : Vm) : Prop :=
  ∀ f, s₀.pmm.Free f → ¬ s.pmm.Free f →
    ∃ p ∈ newPaths s₀ r A, node child s.mem r p = some f

/-- The places are those of user pages. -/
def UserPages (A : Set (List Idx)) : Prop := ∀ d ∈ A, Admissible userFormat d ∧ d.length = 4

section Count

variable {s₀ s s' : Vm} {r page : Nat} {A D : Set (List Idx)} {pml4 va : Word}

theorem newPaths_finite (s : Vm) (r : Nat) (hA : UserPages A) : (newPaths s r A).Finite := by
  refine (List.finite_length_le Idx 4).subset ?_
  rintro p ⟨⟨d, hd, hp⟩, -⟩
  exact hp.length_le.trans (hA d hd).2.le

theorem reach_of_newPath (hA : UserPages A) {p : List Idx} {f : Nat} (hp : p ∈ newPaths s₀ r A)
    (hn : node child s.mem r p = some f) : Reach userFormat {r} s.mem 4 r p f := by
  obtain ⟨⟨d, hd, rest, rfl⟩, -⟩ := hp
  obtain ⟨ha, hl⟩ := hA _ hd
  rw [List.length_append] at hl
  exact ⟨rfl, ha.init, by omega, hn⟩

theorem tablePath_initial (va : Word) : tablePath va 3 <+: pagePath va := List.prefix_append _ _

/-- A table in a page that was free is at a place that was missing. -/
theorem newPath_of_table {p d : List Idx} {f : Nat} (hfree : FreeApart {r} s₀)
    (htables : ∀ {p g}, Table userFormat {r} s₀.mem r p g → Table userFormat {r} s'.mem r p g)
    (hf : s₀.pmm.Free f) (ht : Table userFormat {r} s'.mem r p f) (hd : d ∈ A) (hp : p <+: d) :
    p ∈ newPaths s₀ r A := by
  refine ⟨⟨d, hd, hp⟩, ?_⟩
  cases hn : node child s₀.mem r p with
  | none => rfl
  | some g =>
    have ht₀ : Table userFormat {r} s₀.mem r p g := ⟨rfl, ht.admissible, ht.length_le, hn⟩
    have hg := (htables ht₀).at_path
    rw [ht.at_path] at hg
    cases hg
    exact absurd (ht₀.weaken (by decide)) (hfree.apart f hf r p)

/-- Fresh pages leave every place that was taken before as it is. -/
theorem Mapped.node_kept {p : List Idx} {f : Nat} (h : Mapped s r D s')
    (hr : Reach userFormat {r} s.mem 4 r p f) (hD : p ∉ D) : node child s'.mem r p = some f := by
  rcases hr.table_or_leaf with ht | hl
  · exact (h.tables ht).at_path
  · exact ((h.old hD).mpr hl).at_path

/-- A mapped page goes to a place that was missing, and so do the new tables. -/
theorem Spent.round (hsp : Spent s₀ r A s) (hA : UserPages A) (hfree : FreeApart {r} s₀)
    (h : Mapped s₀ r D s) (hva : pagePath va ∈ A) (hnone₀ : node child s₀.mem r (pagePath va) = none)
    (hnone : node child s.mem r (pagePath va) = none)
    (hone : Mapped s r {pagePath va} s') (hleaf : Leaf userFormat {r} s'.mem r (pagePath va) page)
    (htakes : Mapped.TakesOnWay r va page s s') : Spent s₀ r A s' := by
  intro f hf hused
  by_cases hs : s.pmm.Free f
  · rcases htakes f hs hused with rfl | ⟨p, hp, ht⟩
    · exact ⟨pagePath va, ⟨⟨_, hva, List.prefix_rfl⟩, hnone₀⟩, hleaf.at_path⟩
    · exact ⟨p, newPath_of_table hfree (fun ht => hone.tables (h.tables ht)) hf ht hva
        (hp.trans (tablePath_initial va)), ht.at_path⟩
  · obtain ⟨p, hp, hn⟩ := hsp f hf hs
    refine ⟨p, hp, hone.node_kept (reach_of_newPath hA hp hn) fun hc => ?_⟩
    rw [mem_singleton_iff.mp hc, hnone] at hn
    cases hn

/-- No page is left, and a page is missing. -/
theorem Spent.few (hsp : Spent s₀ r A s) (hA : UserPages A) (hfull : ∀ f, ¬ s.pmm.Free f)
    {q : List Idx} (hq : q ∈ newPaths s₀ r A) (hqn : node child s.mem r q = none) :
    s₀.pmm.freeSet.card < (newPaths s₀ r A).ncard := by
  refine card_lt_of_image (newPaths_finite s₀ r hA) hq
    (fun l => (node child s.mem r l).getD 0) fun f hf => ?_
  obtain ⟨p, hp, hn⟩ := hsp f (Pmm.mem_freeSet.mp hf) (hfull f)
  refine ⟨p, ⟨hp, ?_⟩, ?_⟩
  · rintro rfl
    rw [hqn] at hn
    cases hn
  · dsimp only
    rw [hn]
    rfl

/-- No page is left while one page waits for a table that is missing. -/
theorem Spent.few_waiting (hsp : Spent s₀ r A s) (hA : UserPages A) (hfree : FreeApart {r} s₀)
    (h : Mapped s₀ r D s) (hva : pagePath va ∈ A)
    (hnone₀ : node child s₀.mem r (pagePath va) = none)
    (hone : Mapped s r ∅ s') (htakes : Mapped.TakesOnWay r va page s s')
    (hfull : ∀ f, ¬ s'.pmm.Free f) (htable : node child s'.mem r (tablePath va 3) = none) :
    s₀.pmm.freeSet.card < (newPaths s₀ r A).ncard := by
  have hnotable : ∀ p g, Table userFormat {r} s₀.mem r p g → Table userFormat {r} s'.mem r p g :=
    fun p g ht => hone.tables (h.tables ht)
  have hpage : node child s'.mem r (pagePath va) = none := by
    rw [pagePath, node_append, htable]
    rfl
  have hmissing : tablePath va 3 ∈ newPaths s₀ r A := by
    refine ⟨⟨_, hva, tablePath_initial va⟩, ?_⟩
    cases hn : node child s₀.mem r (tablePath va 3) with
    | none => rfl
    | some g =>
      have ht := hnotable _ g ⟨rfl, (hA _ hva).1.init, (tablePath_length va 3).le, hn⟩
      cases htable.symm.trans (reach_node ht)
  have hne : pagePath va ≠ tablePath va 3 := by
    intro hc
    have := congrArg List.length hc
    rw [pagePath_length, tablePath_length] at this
    omega
  -- The waiting page is counted for its own place, which stays empty as well.
  refine card_lt_of_image (newPaths_finite s₀ r hA) hmissing
    (fun l => if l = pagePath va then page else (node child s'.mem r l).getD 0) fun f hf => ?_
  have hf₀ := Pmm.mem_freeSet.mp hf
  have hplace : f = page ∨ ∃ p ∈ newPaths s₀ r A, node child s'.mem r p = some f := by
    by_cases hs : s.pmm.Free f
    · rcases htakes f hs (hfull f) with hpage | ⟨p, hp, ht⟩
      · exact Or.inl hpage
      · refine Or.inr ⟨p, ?_, ht.at_path⟩
        exact newPath_of_table hfree (hnotable _ _) hf₀ ht hva (hp.trans (tablePath_initial va))
    · obtain ⟨p, hp, hn⟩ := hsp f hf₀ hs
      exact Or.inr ⟨p, hp, hone.node_kept (reach_of_newPath hA hp hn) (notMem_empty p)⟩
  rcases hplace with rfl | ⟨p, hp, hn⟩
  · exact ⟨pagePath va, ⟨⟨⟨_, hva, List.prefix_rfl⟩, hnone₀⟩, hne⟩, if_pos rfl⟩
  · refine ⟨p, ⟨hp, ?_⟩, ?_⟩
    · rintro rfl
      rw [htable] at hn
      cases hn
    · dsimp only
      rw [if_neg, hn]
      · rfl
      · rintro rfl
        rw [hpage] at hn
        cases hn

end Count

section Range

variable {s₀ s s' : Vm} {r : Nat} {A D : Set (List Idx)} {pml4 va : Word} {pages : Nat}

theorem userPages_range (hend : va.toNat + pages * 4096 ≤ 2 ^ 47) :
    UserPages (rangePaths va pages) := by
  rintro p ⟨j, hj, rfl⟩
  refine ⟨admissible_pagePath (userVa_of_lt ?_), pagePath_length _⟩
  rw [toNat_add, toNat_ofNat]
  omega

/-- The addresses of an aligned range are those of its pages. -/
theorem mem_range_iff {base : Word} (halign : base.toNat % 4096 = 0)
    (hend : base.toNat + pages * 4096 ≤ 2 ^ 47) (hva : va.toNat < 2 ^ 47) :
    pagePath va ∈ rangePaths base pages ↔
      base.toNat ≤ va.toNat ∧ va.toNat < base.toNat + pages * 4096 := by
  rw [mem_rangePaths hend hva]
  omega

/-- What holds at every address of a range holds of its pages. -/
theorem forall_rangePaths {P : List Idx → Prop} {base : Word}
    (hend : base.toNat + pages * 4096 ≤ 2 ^ 47)
    (h : ∀ va : Word, base.toNat ≤ va.toNat → va.toNat < base.toNat + pages * 4096 →
      P (pagePath va)) : ∀ p ∈ rangePaths base pages, P p := by
  rintro p ⟨j, hj, rfl⟩
  have hofs : j * 4096 < pages * 4096 := Nat.mul_lt_mul_of_pos_right hj (by decide)
  have hto : (base + BitVec.ofNat 64 (j * 4096)).toNat = base.toNat + j * 4096 := by
    rw [BitVec.toNat_add, BitVec.toNat_ofNat]
    omega
  apply h
  · rw [hto]
    exact Nat.le_add_right _ _
  · rw [hto]
    exact Nat.add_lt_add_left hofs _

/-- The first page of a range is none of the rest. -/
theorem pagePath_notMem_rest (hend : va.toNat + (pages + 1) * 4096 ≤ 2 ^ 47) :
    pagePath va ∉ rangePaths (va + 0x1000) pages := by
  have hto : (va + 0x1000).toNat = va.toNat + 4096 := by
    rw [toNat_add, show (0x1000 : Word).toNat = 4096 from rfl]
    omega
  rw [mem_rangePaths (by omega) (by omega), hto]
  omega

/-- Where there is room for the whole range, the loop maps all of it. -/
theorem mapFresh_of_room {ok : Bool} (hfree : FreeApart {r} s₀) (hA : UserPages A)
    (hroom : (newPaths s₀ r A).ncard ≤ s₀.pmm.freeSet.card) (h : Mapped s₀ r D s)
    (hsp : Spent s₀ r A s) (hr : frameOf pml4 = r) (hend : va.toNat + pages * 4096 ≤ 2 ^ 47)
    (hsub : rangePaths va pages ⊆ A) (hnone₀ : ∀ p ∈ rangePaths va pages, node child s₀.mem r p = none)
    (hD : ∀ p ∈ rangePaths va pages, p ∉ D) (hrun : mapFresh pml4 pages va s = (ok, s')) :
    ok = true ∧ Mapped s₀ r (D ∪ rangePaths va pages) s' := by
  induction pages generalizing va s D with
  | zero =>
    cases hrun
    exact ⟨rfl, by rwa [rangePaths_zero, union_empty]⟩
  | succ pages ih =>
    have hto : (va + 0x1000).toNat = va.toNat + 4096 := by
      rw [toNat_add, show (0x1000 : Word).toNat = 4096 from rfl]
      omega
    have hfirst : pagePath va ∈ rangePaths va (pages + 1) := by
      rw [rangePaths_succ]
      exact mem_insert _ _
    have hrest : ∀ p ∈ rangePaths (va + 0x1000) pages, p ∈ rangePaths va (pages + 1) := by
      intro p hp
      rw [rangePaths_succ]
      exact mem_insert_of_mem _ hp
    have huser : UserVa va := userVa_of_lt (by omega)
    -- The page is not mapped yet, since it was not in the first state.
    have hnone : node child s.mem r (pagePath va) = none := by
      cases hn : node child s.mem r (pagePath va) with
      | none => rfl
      | some f =>
        have hl : Leaf userFormat {r} s.mem r (pagePath va) f :=
          ⟨rfl, admissible_pagePath huser, pagePath_length va, hn⟩
        cases (hnone₀ _ hfirst).symm.trans ((h.old (hD _ hfirst)).mp hl).at_path
    have hmissing : pagePath va ∈ newPaths s₀ r A :=
      ⟨⟨_, hsub hfirst, List.prefix_rfl⟩, hnone₀ _ hfirst⟩
    unfold mapFresh at hrun
    cases halloc : allocFrame s with
    | mk page s₁ =>
      rw [halloc] at hrun
      cases page with
      | none =>
        have hfew := hsp.few hA ((allocFrame_none_iff s).mp ⟨_, halloc⟩) hmissing hnone
        omega
      | some page =>
        replace hrun : mapFresh pml4 pages (va + 0x1000)
          (pmapMap (s₁.zeroFrame page) pml4 va (physOf page) freshFlags) = (ok, s') := hrun
        obtain ⟨htakes, hstep⟩ :=
          (Mapped.refl h.separated h.freeApart).round hr huser halloc rfl
        rcases (h.round hr huser halloc rfl).2 with ⟨hm, hleaf⟩ | ⟨-, hfull, htable⟩
        · rcases hstep with ⟨hone, -⟩ | ⟨-, -, htable⟩
          · rw [insert_empty_eq] at hone
            have hsp' := hsp.round hA hfree h (hsub hfirst) (hnone₀ _ hfirst) hnone hone
              hleaf htakes
            rw [← union_rangePaths_succ]
            refine ih hm hsp' (by omega) (fun p hp => hsub (hrest p hp))
              (fun p hp => hnone₀ p (hrest p hp)) (fun p hp hc => ?_) hrun
            rcases mem_insert_iff.mp hc with rfl | hc
            · exact pagePath_notMem_rest hend hp
            · exact hD p (hrest p hp) hc
          · have hn := hleaf.at_path
            rw [pagePath, node_append, userFormat_child, htable] at hn
            cases hn
        · rcases hstep with ⟨-, hleaf⟩ | ⟨hone, -, -⟩
          · have hn := hleaf.at_path
            rw [pagePath, node_append, userFormat_child, htable] at hn
            cases hn
          · have hfew := hsp.few_waiting hA hfree h (hsub hfirst) (hnone₀ _ hfirst) hone
              htakes hfull htable
            omega

/-- Fresh pages and their tables are as many pages that were free. -/
theorem newPaths_le_of_mapped (hA : UserPages A) (h : Mapped s r A s') :
    (newPaths s r A).ncard ≤ s.pmm.freeSet.card := by
  -- At every missing place there is now a page that was free.
  have hcell : ∀ p ∈ newPaths s r A, ∃ f, s.pmm.Free f ∧ (Table userFormat {r} s'.mem r p f ∨
      p ∈ A ∧ Leaf userFormat {r} s'.mem r p f) := by
    rintro p ⟨⟨d, hd, rest, rfl⟩, hnone⟩
    obtain ⟨f, hleaf, hfree, -⟩ := h.page _ hd
    have hn := hleaf.at_path
    rw [userFormat_child, node_append] at hn
    obtain ⟨g, hg, -⟩ := Option.bind_eq_some_iff.mp hn
    rcases (reach_of_newPath hA ⟨⟨_, hd, List.prefix_append _ _⟩, hnone⟩ hg).table_or_leaf
      with ht | hl
    · rcases h.newTable ht with ht | hfree
      · cases hnone.symm.trans ht.at_path
      · exact ⟨g, hfree, Or.inl ht⟩
    · -- A place of full length is a page itself.
      obtain rfl : rest = [] := by
        have h₁ := hl.length_eq
        have h₂ := hleaf.length_eq
        rw [List.length_append] at h₂
        exact List.length_eq_zero_iff.mp (by omega)
      rw [List.append_nil] at hd hleaf
      cases (reach_node hl.reach).symm.trans (reach_node hleaf.reach)
      exact ⟨f, hfree, Or.inr ⟨hd, hleaf⟩⟩
  have hnode : ∀ {p f}, (Table userFormat {r} s'.mem r p f ∨
      p ∈ A ∧ Leaf userFormat {r} s'.mem r p f) → (node child s'.mem r p).getD 0 = f := by
    rintro p f (ht | ⟨-, hl⟩)
    · rw [reach_node ht]
      rfl
    · rw [reach_node hl.reach]
      rfl
  rw [← ncard_coe_finset]
  refine ncard_le_ncard_of_injOn (fun p => (node child s'.mem r p).getD 0)
    (fun p hp => ?_) (fun p hp p' hp' heq => ?_) (Finset.finite_toSet _)
  · obtain ⟨f, hfree, hcase⟩ := hcell p hp
    rw [hnode hcase]
    exact Pmm.mem_freeSet.mpr hfree
  · obtain ⟨f, -, hcase⟩ := hcell p hp
    obtain ⟨f', -, hcase'⟩ := hcell p' hp'
    dsimp only at heq
    rw [hnode hcase, hnode hcase'] at heq
    subst heq
    rcases hcase with ht | ⟨hpA, hl⟩
    · rcases hcase' with ht' | ⟨-, hl'⟩
      · exact (h.separated.table_unique ht ht').2
      · exact absurd hl' (h.separated.leaf_ne_table ht)
    · rcases hcase' with ht' | ⟨-, hl'⟩
      · exact absurd hl (h.separated.leaf_ne_table ht')
      · exact h.single hpA hl hl'

/-- The loop maps a whole range of unmapped pages exactly where there is room for it. -/
theorem mapFresh_iff_room {ok : Bool} (hsep : Separated userFormat {r} s.mem)
    (hfree : FreeApart {r} s) (hr : frameOf pml4 = r) (hend : va.toNat + pages * 4096 ≤ 2 ^ 47)
    (hnone : ∀ p ∈ rangePaths va pages, node child s.mem r p = none)
    (hrun : mapFresh pml4 pages va s = (ok, s')) :
    ok = true ∧ Mapped s r (rangePaths va pages) s' ↔
      (newPaths s r (rangePaths va pages)).ncard ≤ s.pmm.freeSet.card := by
  have hA : UserPages (rangePaths va pages) := userPages_range hend
  constructor
  · exact fun h => newPaths_le_of_mapped hA h.2
  · intro hroom
    have hspent : Spent s r (rangePaths va pages) s := fun f hf hc => absurd hf hc
    have h := mapFresh_of_room hfree hA hroom (Mapped.refl hsep hfree) hspent hr hend
      Set.Subset.rfl hnone (fun p _ => notMem_empty p) hrun
    rwa [empty_union] at h

/-- A page that is left over shows that there was room. -/
theorem room_of_spare {ok : Bool} {f : Nat} (hsep : Separated userFormat {r} s.mem)
    (hfree : FreeApart {r} s) (hr : frameOf pml4 = r) (hend : va.toNat + pages * 4096 ≤ 2 ^ 47)
    (hrun : mapFresh pml4 pages va s = (ok, s')) (hspare : s'.pmm.Free f) :
    (newPaths s r (rangePaths va pages)).ncard ≤ s.pmm.freeSet.card := by
  have hrange : UserRange va pages := userRange_of_le (by omega)
  rcases mapFresh_mapped (Mapped.refl hsep hfree) hr hrange hrun with
    ⟨-, hm⟩ | ⟨n, -, -, hfull, -⟩
  · rw [empty_union] at hm
    exact newPaths_le_of_mapped (userPages_range hend) hm
  · exact absurd hspare (hfull f)

/-- A range that was unmapped and is shown as a whole consists of fresh pages. -/
theorem mapped_of_shown {ok : Bool} (hsep : Separated userFormat {r} s.mem)
    (hfree : FreeApart {r} s) (hr : frameOf pml4 = r) (hend : va.toNat + pages * 4096 ≤ 2 ^ 47)
    (hnone : ∀ p ∈ rangePaths va pages, node child s.mem r p = none)
    (hshown : ∀ p ∈ rangePaths va pages, (node child s'.mem r p).isSome)
    (hrun : mapFresh pml4 pages va s = (ok, s')) : Mapped s r (rangePaths va pages) s' := by
  have hrange : UserRange va pages := userRange_of_le (by omega)
  rcases mapFresh_mapped (Mapped.refl hsep hfree) hr hrange hrun with ⟨-, hm⟩ | ⟨n, hn, hm, -⟩
  · rwa [empty_union] at hm
  · -- The first page that is missing was not mapped before either.
    rw [empty_union] at hm
    have hbound : va.toNat + n * 4096 < 2 ^ 47 :=
      (Nat.add_lt_add_left (Nat.mul_lt_mul_of_pos_right hn (by decide)) _).trans_le hend
    have hto : (va + BitVec.ofNat 64 (n * 4096)).toNat = va.toNat + n * 4096 := by
      rw [BitVec.toNat_add, BitVec.toNat_ofNat]
      omega
    have hout : pagePath (va + BitVec.ofNat 64 (n * 4096)) ∉ rangePaths va n := by
      rw [mem_rangePaths hbound.le (by rw [hto]; exact hbound), hto, Nat.add_mul_div_right _ _
        (by decide)]
      exact fun hc => lt_irrefl _ hc.2
    have hin : pagePath (va + BitVec.ofNat 64 (n * 4096)) ∈ rangePaths va pages := ⟨n, hn, rfl⟩
    obtain ⟨hadm, hlength⟩ := userPages_range hend _ hin
    obtain ⟨f, hf⟩ := Option.isSome_iff_exists.mp (hshown _ hin)
    have hleaf : Leaf userFormat {r} s.mem r (pagePath (va + BitVec.ofNat 64 (n * 4096))) f :=
      (hm.old hout).mp ⟨rfl, hadm, hlength, hf⟩
    cases (hnone _ hin).symm.trans hleaf.at_path

end Range

end Mmix.Proc
