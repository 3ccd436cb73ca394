import Mmix.Mm.Fork
import Mmix.Mm.RoundTrip

/-!
# The copy that a fork makes

`pmap_fork` copies the pages of an address space one after the other. A copy
takes a page and the tables on its way that are not there yet. When no page is
left for a table, `pmap_map` drops the mapping without a word; for the last
page nothing asks the allocator again, so the fork succeeds without it. The
copy is faithful exactly if there are pages for all of it.
-/

namespace Mmix.Mm

open Forest List Set Option

/-- The page of an address space that a user address shows. -/
def pageAt (s : Vm) (pml4Phys va : Word) : Option Nat :=
  node child s.mem (frameOf pml4Phys) (pagePath va)

/-- An address space that shows the same bytes as another one, in pages of its own, while
the other one is as it was before. -/
structure ForkFaithful (s s' : Vm) (parent childPml4 : Word) : Prop where
  mapped : ∀ va, UserVa va →
    ((pageAt s' childPml4 va).isSome ↔ (pageAt s parent va).isSome)
  bytes : ∀ va f f', UserVa va → pageAt s parent va = some f → pageAt s' childPml4 va = some f' →
    s'.mem f' = s.mem f
  apart : ∀ va va' f f', UserVa va → UserVa va' → pageAt s parent va = some f →
    pageAt s' childPml4 va' = some f' → f' ≠ f
  kept : ∀ p f, Reach userFormat {frameOf parent} s.mem 4 (frameOf parent) p f →
    s'.mem f = s.mem f

/-- The paths of the pages of an address space below a path. -/
def pagesBelow (s : Vm) (r : Nat) (q : List Idx) : Set (List Idx) :=
  {p | q <+: p ∧ ∃ f, Leaf userFormat {r} s.mem r p f}

/-- The places of a copy: its root, and each table and page on the way to a page. -/
def copyPaths (s : Vm) (r : Nat) : Set (List Idx) :=
  {p | p = [] ∨ ∃ l ∈ pagesBelow s r [], p <+: l}

section Copy

variable {s₀ s s' : Vm} {r c : Nat} {D : Set (List Idx)}

theorem mem_pagesBelow_nil {p : List Idx} :
    p ∈ pagesBelow s₀ r [] ↔ ∃ f, Leaf userFormat {r} s₀.mem r p f :=
  ⟨fun h => h.2, fun h => ⟨ nil_prefix, h⟩⟩

theorem copyPaths_finite (s : Vm) (r : Nat) : (copyPaths s r).Finite := by
  refine (finite_length_le Idx 4).subset ?_
  rintro p (rfl | ⟨l, hl, hp⟩)
  · exact Nat.zero_le 4
  · obtain ⟨f, hleaf⟩ := mem_pagesBelow_nil.mp hl
    exact hp.length_le.trans hleaf.length_eq.le

/-- What holds after the pages `D` of the address space `r` have been copied to `c`: they are
all there, or there are too few free pages for the whole copy. -/
structure Copied (s₀ : Vm) (r c : Nat) (D : Set (List Idx)) (s : Vm) : Prop where
  grown : ∃ L, Grown s₀ c L s ∧ (L = ∅ ∧ (∀ p ∈ D, ∃ f, Leaf userFormat {c} s.mem c p f) ∨
    s₀.pmm.freeSet.card < (copyPaths s₀ r).ncard)
  done : ∀ {p f}, Leaf userFormat {c} s.mem c p f → p ∈ D
  copies : ∀ {p f}, Leaf userFormat {c} s.mem c p f →
    ∃ f₀, Leaf userFormat {r} s₀.mem r p f₀ ∧ s.mem f = s₀.mem f₀
  onWay : ∀ {p f}, Table userFormat {c} s.mem c p f → p ∈ copyPaths s₀ r

theorem Copied.kept (h : Copied s₀ r c D s) (hfree : FreeApart {r} s₀) {p : List Idx} {f : Nat}
    (hr : Reach userFormat {r} s₀.mem 4 r p f) : s.mem f = s₀.mem f := by
  obtain ⟨L, hgrown, -⟩ := h.grown
  exact hgrown.kept f fun hf => hfree.apart f hf r p hr

/-- `pmap_map` leaves the content of a page alone that is neither free nor a table. -/
theorem Grown.pmapMap_mem {L : Set Nat} {pml4Phys va flags : Word} (h : Grown s₀ c L s)
    (hc : frameOf pml4Phys = c) (hf : flags &&& pteAddrMask = 0) (hva : UserVa va) (pa : Word)
    {f : Nat} (hused : ¬ s.pmm.Free f) (hpage : ∀ p, ¬ Table userFormat {c} s.mem c p f) :
    (pmapMap s pml4Phys va pa flags).mem f = s.mem f := by
  subst hc
  obtain ⟨hext, hend⟩ := mapWalk_spec hf h.separated h.freeApart rfl hva
  have hnot : ∀ r p, ¬ Table userFormat {frameOf pml4Phys} s.mem r p f := by
    intro r p ht
    obtain rfl : r = frameOf pml4Phys := ht.mem_roots
    exact hpage p ht
  have hwalk := hext.foreign f hused hnot
  cases hw : (mapWalk s pml4Phys va flags).1 with
  | none =>
    rw [pmapMap_of_none hw]
    exact hwalk
  | some t =>
    have hne : f ≠ t := by
      rintro rfl
      rcases hext.fresh (hend f hw) with ht | ⟨hfree, -⟩
      · exact hnot _ _ ht
      · exact hused hfree
    rw [pmapMap_of_some pa hw]
    exact (setCell_row_of_ne _ _ _ hne).trans hwalk

/-- Pages that are spread over some places while one place stays empty. -/
theorem card_lt_of_image {P : Set (List Idx)} {F : Finset Nat} {q : List Idx} (hfin : P.Finite)
    (hq : q ∈ P) (place : List Idx → Nat) (hsub : (F : Set Nat) ⊆ place '' (P \ {q})) :
    F.card < P.ncard := by
  have hfin' : (P \ {q}).Finite := hfin.subset sdiff_subset
  calc F.card = (F : Set Nat).ncard := (ncard_coe_finset F).symm
    _ ≤ (place '' (P \ {q})).ncard := ncard_le_ncard hsub (hfin'.image _)
    _ ≤ (P \ {q}).ncard := ncard_image_le hfin'
    _ < P.ncard := ncard_sdiff_singleton_lt_of_mem hq hfin

/-- The pages are used up, and one page and a place for it are missing. -/
theorem few_pages {w : Vm} {page : Nat} {p q : List Idx} (h : Grown s₀ c {page} w)
    (hnone : ∀ f, ¬ w.pmm.Free f)
    (honWay : ∀ p f, Reach userFormat {c} w.mem 4 c p f → p ∈ copyPaths s₀ r)
    (hp : p ∈ copyPaths s₀ r) (hq : q ∈ copyPaths s₀ r) (hne : p ≠ q)
    (hpn : node child w.mem c p = none) (hqn : node child w.mem c q = none) :
    s₀.pmm.freeSet.card < (copyPaths s₀ r).ncard := by
  -- Every page that was free is now at a place of its own, and no page is at the place `q`.
  refine card_lt_of_image (copyPaths_finite s₀ r) hq
    (fun l => if l = p then page else (node child w.mem c l).getD 0) fun f hf => ?_
  have hfree := Pmm.mem_freeSet.mp hf
  have hused : w.pmm.bitmap f = true :=
    Bool.eq_true_of_not_eq_false fun hb => hnone f ⟨h.total ▸ hfree.1, hb⟩
  rcases (h.taken f).mp hused with hb | hb | ⟨l, hl⟩
  · exact absurd (hb.symm.trans hfree.2) (by decide)
  · exact ⟨p, ⟨hp, hne⟩, (if_pos rfl).trans (mem_singleton_iff.mp hb).symm⟩
  · have hnode := hl.at_path
    rw [userFormat_child] at hnode
    have hlp : l ≠ p := by
      rintro rfl
      rw [hpn] at hnode
      cases hnode
    have hlq : l ≠ q := by
      rintro rfl
      rw [hqn] at hnode
      cases hnode
    refine ⟨l, ⟨honWay l f hl, hlq⟩, ?_⟩
    dsimp only
    rw [if_neg hlp, hnode]
    rfl

/-- The flags of a copied entry. -/
def forkFlags (pte : Word) : Word :=
  (pte &&& ~~~(pteAddrMask ||| pteWrite ||| pteCow)) ||| pteWrite

/-- A copied page before it is mapped. -/
theorem Grown.forkPage_copy {L : Set Nat} {childPml4 va pte : Word} (h : Grown s₀ c L s)
    (hrun : forkPage childPml4 va pte s = (true, s')) :
    ∃ page t, s' = pmapMap t childPml4 va (physOf page) (forkFlags pte) ∧ page ∉ L ∧
      Grown s₀ c (insert page L) t ∧ t.mem page = s.mem (target pte) ∧
      (∀ f, f ≠ page → t.mem f = s.mem f) ∧
      ∀ p g, Reach userFormat {c} t.mem 4 c p g ↔ Reach userFormat {c} s.mem 4 c p g := by
  unfold Mm.forkPage at hrun
  cases halloc : allocFrame s with
  | mk page s₁ =>
    rw [halloc] at hrun
    cases page with
    | none => cases (Prod.mk.inj hrun).1
    | some page =>
      obtain ⟨hp, -, -, hrest⟩ := allocFrame_some halloc
      have hmem₁ : s₁.mem = s.mem := by rw [hrest]
      have h₁ := h.alloc halloc (s₁.mem (target pte))
      have hrefs : (s₁.setFrame page (s₁.mem (target pte))).refs page = s₀.refs page := by
        rw [(extends_alloc h.separated h.freeApart halloc _).rest]
        exact h.refs_of_free hp
      have h₂ := h₁.refInc (mem_insert _ _) hrefs
      have hmem₂ := frameRefInc_mem (s₁.setFrame page (s₁.mem (target pte))) (physOf page)
      refine ⟨page, frameRefInc (s₁.setFrame page (s₁.mem (target pte))) (physOf page),
        (Prod.mk.inj hrun).2.symm, fun hL => h.not_loose_of_free hp (Or.inl hL), h₂, ?_,
        fun f hf => ?_, fun p g => ?_⟩
      · rw [hmem₂, Vm.setFrame_self, hmem₁]
      · rw [hmem₂, Vm.setFrame_of_ne _ _ hf, hmem₁]
      · rw [hmem₂]
        exact reach_congr (fun _ hr _ ha hl => node_alloc h.freeApart halloc _ hr ha hl)
          le_rfl _ _ _

/-- Copying one more page. -/
theorem Copied.forkPage {childPml4 va pte : Word} (h : Copied s₀ r c D s)
    (hfree : FreeApart {r} s₀) (hc : frameOf childPml4 = c)
    (hleaf : Leaf userFormat {r} s₀.mem r (pagePath va) (target pte)) (hD : pagePath va ∉ D)
    (hrun : forkPage childPml4 va pte s = (true, s')) :
    Copied s₀ r c (insert (pagePath va) D) s' := by
  obtain ⟨L, hgrown, hfull⟩ := h.grown
  obtain ⟨page, t, rfl, hL, ht, hpage, hother, hreach⟩ := hgrown.forkPage_copy hrun
  have hva : UserVa va := userVa_iff_admissible.mpr hleaf.admissible
  have hf : forkFlags pte &&& pteAddrMask = 0 := forkFlags_and_pteAddrMask pte
  have hplace : pagePath va ∈ copyPaths s₀ r :=
    Or.inr ⟨_, mem_pagesBelow_nil.mpr ⟨_, hleaf⟩, prefix_rfl⟩
  have hback {p g} (hl : Leaf userFormat {c} t.mem c p g) : Leaf userFormat {c} s.mem c p g :=
    ⟨rfl, hl.admissible, hl.length_eq, ((hreach p g).mp hl.reach).at_path⟩
  have hforth {p g} (hl : Leaf userFormat {c} s.mem c p g) : Leaf userFormat {c} t.mem c p g :=
    ⟨rfl, hl.admissible, hl.length_eq, ((hreach p g).mpr hl.reach).at_path⟩
  have hempty : node child t.mem c (pagePath va) = none := by
    cases hn : node child t.mem c (pagePath va) with
    | none => rfl
    | some g =>
      exact absurd (h.done (hback ⟨rfl, hleaf.admissible, hleaf.length_eq, hn⟩)) hD
  -- The pages of the copy keep their bytes.
  have hused {g} (hg : g ∈ insert page L ∨ InTree c t g) : ¬ t.pmm.Free g := fun hfree =>
    ht.not_loose_of_free hfree hg
  have hcopy : ∀ {p g}, Leaf userFormat {c} t.mem c p g →
      (pmapMap t childPml4 va (physOf page) (forkFlags pte)).mem g = s.mem g := by
    intro p g hl
    have hne : g ≠ page := by
      rintro rfl
      exact ht.loose g (mem_insert _ _) ⟨p, hl.reach⟩
    rw [ht.pmapMap_mem hc hf hva _ (hused (Or.inr ⟨p, hl.reach⟩)) fun q hq =>
      ht.separated.leaf_ne_table hq hl]
    exact hother g hne
  have hnew : (pmapMap t childPml4 va (physOf page) (forkFlags pte)).mem page =
      s₀.mem (target pte) := by
    rw [ht.pmapMap_mem hc hf hva _ (hused (Or.inl (mem_insert _ _))) fun q hq =>
      ht.loose page (mem_insert _ _) ⟨q, hq.weaken (by decide)⟩, hpage]
    exact h.kept hfree hleaf.reach
  obtain ⟨hgrows, hstop⟩ := pmapMapWalk_grows hf 3 ht.separated ht.freeApart ht.zero
    (Owned.root_table (r := c) rfl) rfl (admissible_pagePath hva).init
  have honWay : ∀ {p g}, Table userFormat {c} (pmapMapWalk va (forkFlags pte) 3 c t).2.mem c p g →
      p ∈ copyPaths s₀ r := by
    intro p g htab
    rcases hgrows.on_path htab with htab | ⟨-, hpre⟩
    · have hold := (hreach p g).mp (htab.weaken (by decide))
      exact h.onWay ⟨rfl, htab.admissible, htab.length_le, hold.at_path⟩
    · exact Or.inr ⟨_, mem_pagesBelow_nil.mpr ⟨_, hleaf⟩,
        hpre.trans (prefix_append (tablePath va 3) [idx va 0])⟩
  subst hc
  have hext := (mapWalk_spec hf ht.separated ht.freeApart rfl hva).1
  cases hw : (mapWalk t childPml4 va (forkFlags pte)).1 with
  | none =>
    obtain ⟨hnone, hmissing⟩ := hstop hw
    rw [pmapMap_of_none hw] at hcopy ⊢
    have hwalk := ht.walk rfl hf hva
    refine ⟨⟨insert page L, hwalk, Or.inr ?_⟩, fun hl => ?_, fun {p g} hl => ?_, honWay⟩
    · rcases hfull with ⟨rfl, -⟩ | hfew
      · rw [insert_empty_eq] at hwalk
        refine few_pages hwalk hnone (fun p g hg => ?_) hplace ?_ ?_ ?_ hmissing
        · rcases hg.table_or_leaf with htab | hl
          · exact honWay htab
          · obtain ⟨f₀, hl₀, -⟩ := h.copies (hback (hext.leaf_iff.mp hl))
            exact Or.inr ⟨p, mem_pagesBelow_nil.mpr ⟨f₀, hl₀⟩, prefix_rfl⟩
        · exact Or.inr ⟨_, mem_pagesBelow_nil.mpr ⟨_, hleaf⟩,
            prefix_append (tablePath va 3) [idx va 0]⟩
        · intro heq
          have hlen := congrArg length heq
          rw [pagePath_length, nil_append, tablePath_length] at hlen
          omega
        · rw [hext.pages _ rfl _ hleaf.admissible hleaf.length_eq, hempty]
      · exact hfew
    · exact mem_insert_of_mem _ (h.done (hback (hext.leaf_iff.mp hl)))
    · have hl' := hext.leaf_iff.mp hl
      obtain ⟨f₀, hl₀, hbytes⟩ := h.copies (hback hl')
      exact ⟨f₀, hl₀, (hcopy hl').trans hbytes⟩
  | some e =>
    have hmap := ht.map rfl hf hva hw (mem_insert _ _) hempty
    have hleaves {p g} := ht.leaf_map rfl hf hva hw (mem_insert page L) hempty (p := p) (g := g)
    have htables := fun p g => table_pmapMap (r := frameOf childPml4) (physOf page) hf
      ht.separated ht.freeApart rfl hva hw p g
    refine ⟨⟨_, hmap, ?_⟩, fun {p g} hl => ?_, fun {p g} hl => ?_, fun htab =>
      honWay ((htables _ _).mp htab)⟩
    · refine hfull.imp_left ?_
      rintro ⟨rfl, hall⟩
      refine ⟨by simp, fun p hp => ?_⟩
      rcases hp with rfl | hp
      · exact ⟨page, hleaves.mpr (Or.inl ⟨rfl, rfl⟩)⟩
      · obtain ⟨g, hl⟩ := hall p hp
        exact ⟨g, hleaves.mpr (Or.inr (hforth hl))⟩
    · rcases hleaves.mp hl with ⟨rfl, -⟩ | hl
      · exact mem_insert _ _
      · exact mem_insert_of_mem _ (h.done (hback hl))
    · rcases hleaves.mp hl with ⟨rfl, rfl⟩ | hl
      · exact ⟨_, hleaf, hnew⟩
      · obtain ⟨f₀, hl₀, hbytes⟩ := h.copies (hback hl)
        exact ⟨f₀, hl₀, (hcopy hl).trans hbytes⟩

end Copy

section Loops

variable {s₀ s s' : Vm} {r c : Nat} {D : Set (List Idx)}

/-- A loop whose body does one part after the other. -/
theorem forIdx_parts {α : Type*} {Q : Set α → Vm → Prop} {part : Idx → Set α}
    {body : Idx → Vm → Bool × Vm} (hpart : ∀ i j, i ≠ j → Disjoint (part i) (part j))
    {entries : List Idx} (hnodup : entries.Nodup)
    (hbody : ∀ i ∈ entries, ∀ D s s', Disjoint D (part i) → Q D s → body i s = (true, s') →
      Q (D ∪ part i) s') :
    ∀ D s, (∀ i ∈ entries, Disjoint D (part i)) → Q D s → ∀ s',
      forIdx body entries s = (true, s') → Q (D ∪ ⋃ i ∈ entries, part i) s' := by
  induction entries with
  | nil =>
    intro D s _ hQ s' hrun
    obtain rfl : s = s' := (Prod.mk.inj hrun).2
    simpa using hQ
  | cons i entries ih =>
    intro D s hD hQ s' hrun
    obtain ⟨hi, hnodup⟩ := nodup_cons.mp hnodup
    rw [forIdx] at hrun
    cases hb : body i s with
    | mk ok s₁ =>
      rw [hb] at hrun
      cases ok with
      | false => cases (Prod.mk.inj hrun).1
      | true =>
        have h₁ := hbody i mem_cons_self D s s₁ (hD i mem_cons_self) hQ hb
        have hrest := ih hnodup (fun j hj => hbody j (mem_cons_of_mem i hj))
          (D ∪ part i) s₁ (fun j hj => ?_) h₁ s' hrun
        · have hunion : D ∪ ⋃ j ∈ i :: entries, part j =
              D ∪ part i ∪ ⋃ j ∈ entries, part j := by
            simp [union_assoc, iUnion_or, iUnion_union_distrib]
          rw [hunion]
          exact hrest
        · apply Disjoint.union_left (hD j (mem_cons_of_mem i hj))
          apply hpart
          rintro rfl
          exact hi hj

theorem pagesBelow_disjoint (s : Vm) (r : Nat) (q : List Idx) {i j : Idx} (hij : i ≠ j) :
    Disjoint (pagesBelow s r (q ++ [i])) (pagesBelow s r (q ++ [j])) := by
  rw [Set.disjoint_left]
  rintro p ⟨⟨rest, rfl⟩, -⟩ ⟨⟨rest', hp⟩, -⟩
  simp only [append_assoc, singleton_append, append_cancel_left_eq,
    cons.injEq] at hp
  exact hij hp.1.symm

/-- Below an absent entry there are no pages. -/
theorem pagesBelow_absent {q : List Idx} {i : Idx} {table : Nat}
    (ht : node child s₀.mem r q = some table) (habsent : child (s₀.mem table i) = none) :
    pagesBelow s₀ r (q ++ [i]) = ∅ := by
  apply eq_empty_of_forall_notMem
  rintro p ⟨⟨rest, rfl⟩, f, hl⟩
  have hn := hl.at_path
  rw [userFormat_child, node_append, node_concat, ht, bind_some, habsent] at hn
  cases hn

/-- The pages below a table, entry by entry. -/
theorem pagesBelow_entries {q : List Idx} (hq : q.length ≤ 3) {entries : List Idx}
    (hall : ∀ i, Admissible userFormat (q ++ [i]) → i ∈ entries) :
    ⋃ i ∈ entries, pagesBelow s₀ r (q ++ [i]) = pagesBelow s₀ r q := by
  ext p
  simp only [mem_iUnion, exists_prop]
  constructor
  · rintro ⟨i, -, hp, hl⟩
    exact ⟨(prefix_append q [i]).trans hp, hl⟩
  · rintro ⟨⟨rest, rfl⟩, f, hl⟩
    cases rest with
    | nil =>
      have hlen := hl.length_eq
      rw [append_nil, userFormat_depth] at hlen
      omega
    | cons i rest =>
      have happ : q ++ i :: rest = (q ++ [i]) ++ rest := by simp
      rw [happ] at hl ⊢
      exact ⟨i, hall i hl.admissible.init, prefix_append _ _, f, hl⟩

theorem nodup_userEntries : userEntries.Nodup := (nodup_finRange 512).filter _

/-- Below a page there is only the page. -/
theorem pagesBelow_page {p : List Idx} {f : Nat} (hl : Leaf userFormat {r} s₀.mem r p f) :
    pagesBelow s₀ r p = {p} := by
  ext p'
  constructor
  · rintro ⟨hpre, f', hl'⟩
    exact (hpre.eq_of_length (hl.length_eq.trans hl'.length_eq.symm)).symm
  · rintro rfl
    exact ⟨prefix_rfl, f, hl⟩

/-- The loops of `pmap_fork` below one table copy the pages below its entries. -/
theorem Copied.forkLevel {childPml4 : Word} (hfree : FreeApart {r} s₀)
    (hc : frameOf childPml4 = c) (level : Nat) :
    ∀ {table : Nat} {va : Word} {q : List Idx} {entries : List Idx} {D : Set (List Idx)}
      {s s' : Vm}, level + q.length = 3 →
      va.toNat = pathNat q * 2 ^ (12 + (level + 1) * 9) →
      Reach userFormat {r} s₀.mem 4 r q table → entries.Nodup →
      (∀ i ∈ entries, Admissible userFormat (q ++ [i])) →
      (∀ i ∈ entries, Disjoint D (pagesBelow s₀ r (q ++ [i]))) → Copied s₀ r c D s →
      forkLevel childPml4 level table va entries s = (true, s') →
      Copied s₀ r c (D ∪ ⋃ i ∈ entries, pagesBelow s₀ r (q ++ [i])) s' := by
  induction level with
  | zero =>
    intro table va q entries D s s' hl hva ht hnodup hadm hdisj hs hrun
    refine forIdx_parts (fun i j => pagesBelow_disjoint s₀ r q) hnodup ?_ D s hdisj hs s' hrun
    intro i hi D s s' hD hs hbody
    have hrow : s.mem table i = s₀.mem table i := congrFun (hs.kept hfree ht) i
    dsimp only at hbody
    by_cases habsent : s.mem table i &&& ptePresent = 0
    · rw [if_pos habsent] at hbody
      obtain rfl : s = s' := (Prod.mk.inj hbody).2
      rw [pagesBelow_absent ht.at_path (child_eq_none.mpr (hrow ▸ habsent)), union_empty]
      exact hs
    · rw [if_neg habsent] at hbody
      have hpath : pagePath (va ||| (BitVec.ofNat 64 i.val <<< 12)) = q ++ [i] :=
        pagePath_of_pathNat (by simp; omega) (or_index_toNat hl hva i)
      have hleaf : Leaf userFormat {r} s₀.mem r (q ++ [i]) (target (s.mem table i)) := by
        refine ⟨rfl, hadm i hi, by simp; omega, ?_⟩
        have hn := ht.at_path
        rw [userFormat_child] at hn ⊢
        rw [node_concat, hn, bind_some, ← hrow, child_eq_some habsent]
      rw [pagesBelow_page hleaf] at hD ⊢
      rw [← hpath] at hleaf hD ⊢
      rw [union_singleton]
      exact hs.forkPage hfree hc hleaf (disjoint_singleton_right.mp hD) hbody
  | succ level ih =>
    intro table va q entries D s s' hl hva ht hnodup hadm hdisj hs hrun
    refine forIdx_parts (fun i j => pagesBelow_disjoint s₀ r q) hnodup ?_ D s hdisj hs s' hrun
    intro i hi D s s' hD hs hbody
    have hrow : s.mem table i = s₀.mem table i := congrFun (hs.kept hfree ht) i
    dsimp only at hbody
    by_cases habsent : s.mem table i &&& ptePresent = 0
    · rw [if_pos habsent] at hbody
      obtain rfl : s = s' := (Prod.mk.inj hbody).2
      rw [pagesBelow_absent ht.at_path (child_eq_none.mpr (hrow ▸ habsent)), union_empty]
      exact hs
    · rw [if_neg habsent] at hbody
      have hnext : Reach userFormat {r} s₀.mem 4 r (q ++ [i]) (target (s.mem table i)) := by
        refine ⟨rfl, hadm i hi, by simp; omega, ?_⟩
        have hn := ht.at_path
        rw [userFormat_child] at hn ⊢
        rw [node_concat, hn, bind_some, ← hrow, child_eq_some habsent]
      have hentries : ⋃ j ∈ finRange 512, pagesBelow s₀ r ((q ++ [i]) ++ [j]) =
          pagesBelow s₀ r (q ++ [i]) :=
        pagesBelow_entries (by simp; omega) fun j _ => mem_finRange j
      rw [← hentries]
      refine ih (by simp; omega) (or_index_toNat (by omega) hva i) hnext
        (nodup_finRange 512) (fun j _ => (hadm i hi).extend [j] (by simp)) (fun j _ => ?_)
        hs hbody
      refine hD.mono_right ?_
      rintro p ⟨hp, hl⟩
      exact ⟨(prefix_append _ [j]).trans hp, hl⟩

end Loops

section Fork

variable {s s' : Vm} {parent childPml4 : Word}

/-- A fork that succeeds has copied all pages, or there were too few. -/
theorem fork_copied (hfree : AllocApart s parent) (hfork : pmapFork s parent = (childPml4, s'))
    (hchild : childPml4 ≠ 0) :
    Copied s (frameOf parent) (frameOf childPml4) (pagesBelow s (frameOf parent) []) s' := by
  unfold pmapFork at hfork
  cases hcreate : pmapCreate s with
  | mk pml4 s₁ =>
    rw [hcreate] at hfork
    dsimp only at hfork
    by_cases h0 : pml4 = 0
    · rw [if_pos h0] at hfork
      exact absurd (Prod.mk.inj hfork).1.symm hchild
    rw [if_neg h0] at hfork
    cases hloop : forkLevel pml4 3 (frameOf parent) 0 userEntries s₁ with
    | mk ok s₂ =>
      rw [hloop] at hfork
      cases ok with
      | false => exact absurd (Prod.mk.inj hfork).1.symm hchild
      | true =>
        cases hfork
        obtain ⟨page, hpage, hgrown, honly⟩ := Grown.pmapCreate hfree.total_le hcreate h0
        have hleaf : ∀ {p f}, ¬ Leaf userFormat {page} s₁.mem page p f := by
          intro p f hl
          have hlen := hl.length_eq
          rw [honly hl.reach] at hlen
          cases hlen
        have hstart : Copied s (frameOf parent) page ∅ s₁ :=
          ⟨⟨∅, hgrown, Or.inl ⟨rfl, fun p hp => by cases hp⟩⟩, fun hl => absurd hl hleaf,
            fun hl => absurd hl hleaf, fun ht => Or.inl (honly ht)⟩
        have hzero : (0 : Word).toNat = pathNat [] * 2 ^ (12 + (3 + 1) * 9) := by
          simp [pathNat]
        have hend := hstart.forkLevel hfree hpage 3 (q := []) rfl hzero
          (reach_root (frameOf parent) s) nodup_userEntries
          (fun i hi j hj => by
            cases hj
            exact mem_userEntries.mp hi)
          (fun i _ => empty_disjoint _) hloop
        rw [pagesBelow_entries (q := []) (Nat.zero_le 3) fun i hi => mem_userEntries.mpr (hi i rfl),
          empty_union] at hend
        rw [hpage]
        exact hend

/-- Every path of four indices is that of an address. -/
theorem exists_pagePath {p : List Idx} (hp : p.length = 4) : ∃ va, pagePath va = p := by
  have hlt := pathNat_lt p
  rw [hp] at hlt
  refine ⟨BitVec.ofNat 64 (pathNat p * 2 ^ 12), pagePath_of_pathNat hp ?_⟩
  rw [BitVec.toNat_ofNat, Nat.mod_eq_of_lt]
  omega

theorem leaf_iff_pageAt {va : Word} (hva : UserVa va) {f : Nat} :
    Leaf userFormat {frameOf parent} s.mem (frameOf parent) (pagePath va) f ↔
      pageAt s parent va = some f :=
  ⟨fun h => h.at_path, fun h => ⟨rfl, admissible_pagePath hva, pagePath_length va, h⟩⟩

/-- A faithful copy has a page that was free at each of its places. -/
theorem copyPaths_le_of_faithful (h : Copied s (frameOf parent) (frameOf childPml4)
      (pagesBelow s (frameOf parent) []) s') (hf : ForkFaithful s s' parent childPml4) :
    (copyPaths s (frameOf parent)).ncard ≤ s.pmm.freeSet.card := by
  obtain ⟨L, hgrown, -⟩ := h.grown
  have hcell : ∀ p ∈ copyPaths s (frameOf parent), ∃ f,
      Reach userFormat {frameOf childPml4} s'.mem 4 (frameOf childPml4) p f := by
    rintro p (rfl | ⟨l, hl, rest, rfl⟩)
    · exact ⟨_, reach_root _ s'⟩
    · obtain ⟨f, hleaf⟩ := mem_pagesBelow_nil.mp hl
      obtain ⟨va, hva⟩ := exists_pagePath hleaf.length_eq
      rw [← hva] at hleaf
      have huser := userVa_iff_admissible.mpr hleaf.admissible
      have hsome := (hf.mapped va huser).mpr (by rw [(leaf_iff_pageAt huser).mp hleaf]; rfl)
      rw [pageAt, hva, node_append] at hsome
      cases hn : node child s'.mem (frameOf childPml4) p with
      | none =>
        rw [hn] at hsome
        cases hsome
      | some g =>
        have hlen := hleaf.length_eq
        rw [hva, length_append, userFormat_depth] at hlen
        exact ⟨g, rfl, (hva ▸ hleaf.admissible).init, by omega, hn⟩
  have hnode : ∀ {p f}, Reach userFormat {frameOf childPml4} s'.mem 4 (frameOf childPml4) p f →
      (node child s'.mem (frameOf childPml4) p).getD 0 = f := by
    intro p f hr
    rw [reach_node hr]
    rfl
  rw [← ncard_coe_finset]
  refine ncard_le_ncard_of_injOn (fun p => (node child s'.mem (frameOf childPml4) p).getD 0)
    (fun p hp => ?_) (fun p hp p' hp' heq => ?_) (Finset.finite_toSet _)
  · obtain ⟨f, hr⟩ := hcell p hp
    rw [hnode hr]
    exact Pmm.mem_freeSet.mpr (hgrown.fresh f (Or.inr ⟨p, hr⟩))
  · obtain ⟨f, hr⟩ := hcell p hp
    obtain ⟨f', hr'⟩ := hcell p' hp'
    dsimp only at heq
    rw [hnode hr, hnode hr'] at heq
    subst heq
    exact hgrown.path_unique hr hr'

/-- Where there are pages for the whole copy, it is faithful. -/
theorem faithful_of_copyPaths_le (hfree : AllocApart s parent)
    (h : Copied s (frameOf parent) (frameOf childPml4) (pagesBelow s (frameOf parent) []) s')
    (henough : (copyPaths s (frameOf parent)).ncard ≤ s.pmm.freeSet.card) :
    ForkFaithful s s' parent childPml4 := by
  obtain ⟨L, hgrown, ⟨-, hall⟩ | hfew⟩ := h.grown
  · refine ⟨fun va hva => ?_, fun va f f' hva hf hf' => ?_, fun va va' f f' hva hva' hf hf' => ?_,
      fun p f hr => h.kept hfree hr⟩
    · constructor
      · intro hsome
        obtain ⟨f, hf⟩ := isSome_iff_exists.mp hsome
        obtain ⟨f₀, hl₀, -⟩ := h.copies ((leaf_iff_pageAt hva).mpr hf)
        rw [(leaf_iff_pageAt hva).mp hl₀]
        rfl
      · intro hsome
        obtain ⟨f, hf⟩ := isSome_iff_exists.mp hsome
        obtain ⟨f', hl'⟩ := hall _ (mem_pagesBelow_nil.mpr ⟨f, (leaf_iff_pageAt hva).mpr hf⟩)
        rw [(leaf_iff_pageAt hva).mp hl']
        rfl
    · obtain ⟨f₀, hl₀, hbytes⟩ := h.copies ((leaf_iff_pageAt hva).mpr hf')
      have hsame := (leaf_iff_pageAt hva).mp hl₀
      rw [hf] at hsame
      rw [hbytes, some.inj hsame]
    · rintro rfl
      have hl := (leaf_iff_pageAt hva).mpr hf
      have hl' := (leaf_iff_pageAt hva').mpr hf'
      exact hfree.apart f' (hgrown.fresh f' (Or.inr ⟨_, hl'.reach⟩)) _ _ hl.reach
  · exact absurd henough (Nat.not_le.mpr hfew)

theorem fork_faithful_iff (hfree : AllocApart s parent)
    (hfork : pmapFork s parent = (childPml4, s')) (hchild : childPml4 ≠ 0) :
    ForkFaithful s s' parent childPml4 ↔
      (copyPaths s (frameOf parent)).ncard ≤ s.pmm.freeSet.card :=
  ⟨copyPaths_le_of_faithful (fork_copied hfree hfork hchild),
    faithful_of_copyPaths_le hfree (fork_copied hfree hfork hchild)⟩

/-- An address space with one page at address 0: the tables are the frames 1 to 4, the page is
frame 5, and the frames from 6 on are free. -/
def onePage (total : Nat) : Vm where
  pmm := { bitmap := fun page => decide (page < 6), totalPages := total, freePages := 0 }
  mem := fun f i => if i = 0 ∧ 1 ≤ f ∧ f ≤ 4 then physOf (f + 1) ||| 7 else 0
  refs := fun _ => 0
  refsPages := total
  cr3 := 0x1000
  kernelPml4 := 0x1000
  usable := fun _ => true

theorem onePage_child {total f g : Nat} {i : Idx} (h : child ((onePage total).mem f i) = some g) :
    i = 0 ∧ f ≤ 4 ∧ g = f + 1 := by
  change child (if i = 0 ∧ 1 ≤ f ∧ f ≤ 4 then physOf (f + 1) ||| 7 else 0) = some g at h
  split at h
  next hif =>
    obtain ⟨hi, hlow, hhigh⟩ := hif
    have hchild : child (physOf (f + 1) ||| 7) = some (f + 1) := by
      interval_cases f <;> decide
    rw [hchild] at h
    exact ⟨hi, hhigh, (some.inj h).symm⟩
  next =>
    rw [child_zero] at h
    cases h

theorem onePage_node {total : Nat} {p : List Idx} : ∀ {f g : Nat}, f ≤ 5 →
    node child (onePage total).mem f p = some g →
      p = replicate p.length 0 ∧ g = f + p.length ∧ g ≤ 5 := by
  induction p with
  | nil =>
    intro f g hf h
    cases h
    exact ⟨rfl, rfl, hf⟩
  | cons i p ih =>
    intro f g hf h
    rw [node_cons, bind_eq_some_iff] at h
    obtain ⟨next, hnext, hrest⟩ := h
    obtain ⟨rfl, hf, rfl⟩ := onePage_child hnext
    obtain ⟨hp, hg, hle⟩ := ih (by omega) hrest
    refine ⟨?_, ?_, hle⟩
    · rw [length_cons, replicate_succ, ← hp]
    · rw [length_cons, hg]
      omega

theorem onePage_allocApart {total : Nat} (htotal : total ≤ 2 ^ 40) :
    AllocApart (onePage total) 0x1000 := by
  refine ⟨htotal, fun page hpage r p hr => ?_⟩
  obtain rfl : r = 1 := hr.mem_roots
  have hle := (onePage_node (by decide) (reach_node hr)).2.2
  have hbit : decide (page < 6) = false := hpage.2
  exact of_decide_eq_false hbit (by omega)

theorem onePage_copyPaths (total : Nat) : (copyPaths (onePage total) 1).ncard ≤ 5 := by
  have hsub : copyPaths (onePage total) 1 ⊆
      ((Finset.range 5).image fun k => replicate k (0 : Idx) : Finset (List Idx)) := by
    have hmem : ∀ {p : List Idx}, p = replicate p.length 0 → p.length < 5 →
        p ∈ ((Finset.range 5).image fun k => replicate k (0 : Idx) : Finset (List Idx)) :=
      fun hp hlt => Finset.mem_image.mpr ⟨_, Finset.mem_range.mpr hlt, hp.symm⟩
    rintro p (rfl | ⟨l, hl, rest, rfl⟩)
    · exact hmem rfl (by decide)
    · obtain ⟨f, hleaf⟩ := mem_pagesBelow_nil.mp hl
      have hlen := hleaf.length_eq
      rw [length_append, userFormat_depth] at hlen
      have hrep := (onePage_node (by decide) (reach_node hleaf.reach)).1
      rw [length_append, ← replicate_append_replicate] at hrep
      exact hmem (append_inj_left hrep (by simp)) (by omega)
  calc (copyPaths (onePage total) 1).ncard ≤ _ := ncard_le_ncard hsub (Finset.finite_toSet _)
    _ = _ := ncard_coe_finset _
    _ ≤ (Finset.range 5).card := Finset.card_image_le
    _ = 5 := Finset.card_range 5

theorem fork_faithful_onePage : ∃ childPml4 s', pmapFork (onePage 12) 0x1000 = (childPml4, s') ∧
    ForkFaithful (onePage 12) s' 0x1000 childPml4 := by
  refine ⟨(pmapFork (onePage 12) 0x1000).1, (pmapFork (onePage 12) 0x1000).2, Prod.mk.eta.symm,
    (fork_faithful_iff (onePage_allocApart (by decide)) Prod.mk.eta.symm
      (by decide +kernel)).mpr ?_⟩
  exact (onePage_copyPaths 12).trans (by decide)

/-- With two pages left the copy has a root and a page that no table leads to. -/
theorem fork_drops_page : ∃ childPml4 s', AllocApart (onePage 8) 0x1000 ∧
    pmapFork (onePage 8) 0x1000 = (childPml4, s') ∧ childPml4 ≠ 0 ∧
    pageAt (onePage 8) 0x1000 0 = some 5 ∧ pageAt s' childPml4 0 = none := by
  refine ⟨(pmapFork (onePage 8) 0x1000).1, (pmapFork (onePage 8) 0x1000).2,
    onePage_allocApart (by decide), Prod.mk.eta.symm, ?_⟩
  decide +kernel

end Fork

end Mmix.Mm
