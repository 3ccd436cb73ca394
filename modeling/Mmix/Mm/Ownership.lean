import Mmix.Mm.Mapping

/-!
# Ownership of frames

What holds of a set of address spaces whose frames nobody else uses. Every
table and every mapped page belongs to one place of one address space, and the
allocator does not hand it out. Beside the roots of the address spaces there
are two parameters: frames that the kernel holds outside of them, and the
address spaces whose pages all carry the reference count one.
-/

namespace Mmix.Mm

open Forest

/-- No address space shows the frame, as a table or as a page. -/
def Unreached (R : Set Nat) (s : Vm) (f : Nat) : Prop :=
  ∀ r p, ¬ Reach userFormat R s.mem 4 r p f

/-- Counters of a set of frames may have been lowered, and frames of it whose
counter is zero given back. -/
structure Releases (D : Set Nat) (s s' : Vm) : Prop where
  mem : s'.mem = s.mem
  total : s'.pmm.totalPages = s.pmm.totalPages
  pages : s'.refsPages = s.refsPages
  free : ∀ f, s'.pmm.Free f → s.pmm.Free f ∨ f ∈ D ∧ s'.refs f = 0
  zero : ∀ f, s.refs f = 0 → s'.refs f = 0
  refs : ∀ f, f ∉ D → s'.refs f = s.refs f

namespace Releases

variable {D : Set Nat} {s s' s'' : Vm}

theorem refl (D : Set Nat) (s : Vm) : Releases D s s :=
  ⟨rfl, rfl, rfl, fun _ => Or.inl, fun _ => id, fun _ _ => rfl⟩

theorem trans (h : Releases D s s') (h' : Releases D s' s'') : Releases D s s'' where
  mem := h'.mem.trans h.mem
  total := h'.total.trans h.total
  pages := h'.pages.trans h.pages
  free := fun f hf => by
    rcases h'.free f hf with hf' | hd
    · exact (h.free f hf').imp_right fun hd => ⟨hd.1, h'.zero f hd.2⟩
    · exact Or.inr hd
  zero := fun f hz => h'.zero f (h.zero f hz)
  refs := fun f hf => (h'.refs f hf).trans (h.refs f hf)

theorem setEntry (h : Releases D s s') (t : Nat) (i : Idx) (w : Word) :
    Releases D (s.setEntry t i w) (s'.setEntry t i w) where
  mem := by
    unfold Vm.setEntry
    rw [h.mem]
  total := h.total
  pages := h.pages
  free := h.free
  zero := h.zero
  refs := h.refs

theorem freeFrame {f : Nat} (hf : f ∈ D) (hz : s.refs f = 0) : Releases D s (freeFrame s f) where
  mem := rfl
  total := (pmmFree_frame f 1 s.pmm).1
  pages := rfl
  free := fun g hg => by
    by_cases hgf : g = f
    · subst hgf
      exact Or.inr ⟨hf, hz⟩
    · refine Or.inl ⟨(pmmFree_frame f 1 s.pmm).1 ▸ hg.1, ?_⟩
      rw [← (pmmFree_frame f 1 s.pmm).2 g (by omega)]
      exact hg.2
  zero := fun _ => id
  refs := fun _ _ => rfl

/-- The references to a page drop by one, and the last one frees it. -/
theorem destroyLeaf {pa : Word} (hd : frameOf pa ∈ D) : Releases D s (destroyLeaf s pa) := by
  unfold Mm.destroyLeaf frameRefDec
  by_cases hv : refValid s pa
  · have hdec : Releases D s (if 0 < s.refs (frameOf pa) then
        { s with refs := Function.update s.refs (frameOf pa) (s.refs (frameOf pa) - 1) }
      else s) := by
      split
      next hpos =>
        refine ⟨rfl, rfl, rfl, fun _ => Or.inl, fun f hz => ?_, fun f hf => ?_⟩
        · have hne : f ≠ frameOf pa := by
            rintro rfl
            rw [hz] at hpos
            exact absurd hpos (BitVec.lt_irrefl _)
          simp only [Function.update_of_ne hne]
          exact hz
        · have hne : f ≠ frameOf pa := by
            rintro rfl
            exact hf hd
          simp only [Function.update_of_ne hne]
      next => exact Releases.refl D s
    rw [if_pos hv]
    dsimp only
    split
    next s₁ he =>
      obtain ⟨hz, rfl⟩ := Prod.mk.inj he
      exact hdec.trans (freeFrame hd (eq_of_beq hz))
    next s₁ he =>
      obtain ⟨-, rfl⟩ := Prod.mk.inj he
      exact hdec
  · rw [if_neg hv]
    exact Releases.refl D s

end Releases

/-- The address spaces with roots `R` own their frames; the frames `K` are held
by the kernel, and the pages of the spaces in `E` are counted once. -/
structure Owned (K E R : Set Nat) (s : Vm) : Prop where
  separated : Separated userFormat R s.mem
  freeApart : FreeApart R s
  single : ∀ {r p r' p' f}, Leaf userFormat R s.mem r p f → Leaf userFormat R s.mem r' p' f →
    r = r' ∧ p = p'
  nonzero : ∀ {r p}, ¬ Table userFormat R s.mem r p 0
  free_refs : ∀ f, s.pmm.Free f → s.refs f = 0
  table_refs : ∀ {r p f}, Table userFormat R s.mem r p f → s.refs f = 0
  held : ∀ f ∈ K, ¬ s.pmm.Free f ∧ Unreached R s f ∧ s.refs f = 0
  counted : ∀ {r p f}, Leaf userFormat R s.mem r p f → r ∈ E → f < s.refsPages → s.refs f = 1

namespace Owned

variable {K E R : Set Nat} {s s' : Vm}

theorem root_table {r : Nat} (hr : r ∈ R) : Table userFormat R s.mem r [] r :=
  ⟨hr, admissible_nil _, by decide, rfl⟩

/-- A frame outside of all address spaces stays there when tables are added. -/
theorem unreached_extends (hx : Extends R s s') {f : Nat} (hf : ¬ s.pmm.Free f)
    (hun : Unreached R s f) : Unreached R s' f := by
  intro r p hr
  rcases hr.table_or_leaf with ht | hl
  · rcases hx.fresh ht with ht | ⟨hfree, -⟩
    · exact hun r p (ht.weaken (by decide))
    · exact hf hfree
  · refine hun r p ⟨hl.mem_roots, hl.admissible, hl.length_eq.le, ?_⟩
    exact (hx.pages r hl.mem_roots p hl.admissible hl.length_eq).symm.trans hl.at_path

theorem leaf_extends (hx : Extends R s s') {r : Nat} {p : List Idx} {f : Nat}
    (h : Leaf userFormat R s'.mem r p f) : Leaf userFormat R s.mem r p f :=
  ⟨h.mem_roots, h.admissible, h.length_eq,
    (hx.pages r h.mem_roots p h.admissible h.length_eq).symm.trans h.at_path⟩

/-- Growing tables keep the ownership. -/
theorem of_extends (h : Owned K E R s) (hx : Extends R s s') : Owned K E R s' := by
  have hrefs : s'.refs = s.refs := by rw [hx.rest]
  have hpages : s'.refsPages = s.refsPages := by rw [hx.rest]
  refine ⟨hx.separated, hx.freeApart, fun h₁ h₂ => h.single (leaf_extends hx h₁)
    (leaf_extends hx h₂), fun ht => ?_, fun f hf => ?_, fun ht => ?_, fun f hf => ?_,
    fun hl hr hlt => ?_⟩
  · rcases hx.fresh ht with ht | ⟨-, -, h0⟩
    · exact h.nonzero ht
    · exact h0 rfl
  · rw [hrefs]
    exact h.free_refs f (hx.free hf)
  · rw [hrefs]
    rcases hx.fresh ht with ht | ⟨hfree, -⟩
    · exact h.table_refs ht
    · exact h.free_refs _ hfree
  · obtain ⟨hused, hun, hz⟩ := h.held f hf
    exact ⟨hx.not_free hused, unreached_extends hx hused hun, by rw [hrefs]; exact hz⟩
  · rw [hrefs]
    rw [hpages] at hlt
    exact h.counted (leaf_extends hx hl) hr hlt

/-- Fewer frames held, fewer spaces counted, fewer spaces. -/
theorem mono {K' E' R' : Set Nat} (h : Owned K E R s) (hK : K' ⊆ K) (hE : E' ⊆ E) (hR : R' ⊆ R) :
    Owned K' E' R' s where
  separated := h.separated.mono hR
  freeApart := ⟨h.freeApart.total_le, fun f hf r p hr =>
    h.freeApart.apart f hf r p (hr.of_mem (hR hr.mem_roots))⟩
  single := fun h₁ h₂ => h.single (h₁.of_mem (hR h₁.mem_roots)) (h₂.of_mem (hR h₂.mem_roots))
  nonzero := fun ht => h.nonzero (ht.of_mem (hR ht.mem_roots))
  free_refs := h.free_refs
  table_refs := fun ht => h.table_refs (ht.of_mem (hR ht.mem_roots))
  held := fun f hf => by
    obtain ⟨hused, hun, hz⟩ := h.held f (hK hf)
    exact ⟨hused, fun r p hr => hun r p (hr.of_mem (hR hr.mem_roots)), hz⟩
  counted := fun hl hr => h.counted (hl.of_mem (hR hl.mem_roots)) (hE hr)

/-- Writes that move no table and no page. -/
theorem of_nodes (h : Owned K E R s)
    (hnode : ∀ r ∈ R, ∀ p, Admissible userFormat p → p.length ≤ userFormat.depth + 1 →
      node userFormat.child s'.mem r p = node userFormat.child s.mem r p)
    (hpmm : s'.pmm = s.pmm) (hrefs : s'.refs = s.refs) (hpages : s'.refsPages = s.refsPages) :
    Owned K E R s' := by
  have hreach {r p f} (hr : Reach userFormat R s'.mem 4 r p f) : Reach userFormat R s.mem 4 r p f :=
    (reach_congr hnode le_rfl r p f).mp hr
  have htable {r p f} (ht : Table userFormat R s'.mem r p f) : Table userFormat R s.mem r p f :=
    (reach_congr hnode (by decide) r p f).mp ht
  have hleaf {r p f} (hl : Leaf userFormat R s'.mem r p f) : Leaf userFormat R s.mem r p f :=
    (leaf_congr hnode r p f).mp hl
  refine ⟨h.separated.congr hnode, ⟨by rw [hpmm]; exact h.freeApart.total_le, fun f hf r p hr => ?_⟩,
    fun h₁ h₂ => h.single (hleaf h₁) (hleaf h₂), fun ht => h.nonzero (htable ht), fun f hf => ?_,
    fun ht => ?_, fun f hf => ?_, fun hl hr hlt => ?_⟩
  · rw [hpmm] at hf
    exact h.freeApart.apart f hf r p (hreach hr)
  · rw [hrefs]
    rw [hpmm] at hf
    exact h.free_refs f hf
  · rw [hrefs]
    exact h.table_refs (htable ht)
  · obtain ⟨hused, hun, hz⟩ := h.held f hf
    rw [hpmm, hrefs]
    exact ⟨hused, fun r p hr => hun r p (hreach hr), hz⟩
  · rw [hrefs]
    rw [hpages] at hlt
    exact h.counted (hleaf hl) hr hlt

/-- Writes outside of the tables. -/
theorem of_agree (h : Owned K E R s)
    (hmem : ∀ r p f, Table userFormat R s.mem r p f → s'.mem f = s.mem f)
    (hpmm : s'.pmm = s.pmm) (hrefs : s'.refs = s.refs) (hpages : s'.refsPages = s.refsPages) :
    Owned K E R s' :=
  h.of_nodes (fun _ hr _ ha hl => node_eq_of_agree hmem hr ha hl) hpmm hrefs hpages

/-- A change of allocator and counters that concerns one frame outside of all
address spaces, which is free only with a cleared counter. -/
theorem of_frame (h : Owned K E R s) {f : Nat} (hun : Unreached R s f) (hK : f ∉ K)
    (hmem : s'.mem = s.mem) (htotal : s'.pmm.totalPages = s.pmm.totalPages)
    (hbits : ∀ g, g ≠ f → s'.pmm.bitmap g = s.pmm.bitmap g)
    (hrefs : ∀ g, g ≠ f → s'.refs g = s.refs g) (hpages : s'.refsPages = s.refsPages)
    (hfree : s'.pmm.Free f → s'.refs f = 0) : Owned K E R s' := by
  have hfreeIff {g : Nat} (hg : g ≠ f) : s'.pmm.Free g ↔ s.pmm.Free g := by
    unfold Pmm.Free
    rw [htotal, hbits g hg]
  have hne {levels r p g} (hl : levels ≤ 4) (hr : Reach userFormat R s.mem levels r p g) :
      g ≠ f := by
    rintro rfl
    exact hun r p (hr.weaken hl)
  refine ⟨by rw [hmem]; exact h.separated, ⟨htotal.trans_le h.freeApart.total_le, ?_⟩,
    by rw [hmem]; exact h.single, by rw [hmem]; exact h.nonzero, ?_, ?_, ?_, ?_⟩
  · intro g hg r p hr
    rw [hmem] at hr
    exact h.freeApart.apart g ((hfreeIff (hne le_rfl hr)).mp hg) r p hr
  · intro g hg
    by_cases hgf : g = f
    · subst hgf
      exact hfree hg
    · rw [hrefs g hgf]
      exact h.free_refs g ((hfreeIff hgf).mp hg)
  · intro r p g ht
    rw [hmem] at ht
    rw [hrefs g (hne (by decide) ht)]
    exact h.table_refs ht
  · intro g hg
    obtain ⟨hused, hun', hz⟩ := h.held g hg
    have hgf : g ≠ f := by
      rintro rfl
      exact hK hg
    refine ⟨fun hf => hused ((hfreeIff hgf).mp hf), ?_, by rw [hrefs g hgf]; exact hz⟩
    unfold Unreached
    rw [hmem]
    exact hun'
  · intro r p g hl hr hlt
    rw [hmem] at hl
    rw [hrefs g (hne le_rfl hl.reach)]
    rw [hpages] at hlt
    exact h.counted hl hr hlt

/-- Frames that the remaining address spaces do not show are given back. -/
theorem of_releases {D R' : Set Nat} (h : Owned K E R s) (hs : Releases D s s') (hR : R' ⊆ R)
    (hD : ∀ f ∈ D, Unreached R' s f ∧ f ∉ K) : Owned K E R' s' := by
  have h' := h.mono subset_rfl subset_rfl hR
  have hnot {levels r p f} (hl : levels ≤ 4) (hr : Reach userFormat R' s.mem levels r p f) :
      f ∉ D := fun hf => (hD f hf).1 r p (hr.weaken hl)
  refine ⟨by rw [hs.mem]; exact h'.separated, ⟨hs.total.trans_le h.freeApart.total_le, ?_⟩,
    by rw [hs.mem]; exact h'.single, by rw [hs.mem]; exact h'.nonzero, ?_, ?_, ?_, ?_⟩
  · intro f hf r p hr
    rw [hs.mem] at hr
    rcases hs.free f hf with hf' | ⟨hd, -⟩
    · exact h'.freeApart.apart f hf' r p hr
    · exact hnot le_rfl hr hd
  · intro f hf
    rcases hs.free f hf with hf' | ⟨-, hz⟩
    · exact hs.zero f (h.free_refs f hf')
    · exact hz
  · intro r p f ht
    rw [hs.mem] at ht
    exact hs.zero f (h'.table_refs ht)
  · intro f hf
    obtain ⟨hused, hun, hz⟩ := h'.held f hf
    refine ⟨fun hfree => ?_, ?_, hs.zero f hz⟩
    · rcases hs.free f hfree with hf' | ⟨hd, -⟩
      · exact hused hf'
      · exact (hD f hd).2 hf
    · unfold Unreached
      rw [hs.mem]
      exact hun
  · intro r p f hl hr hlt
    rw [hs.mem] at hl
    rw [hs.pages] at hlt
    rw [hs.refs f (hnot le_rfl hl.reach)]
    exact h'.counted hl hr hlt

section Leaves

variable {r t : Nat} {q : List Idx}

/-- What is reached after a write to a last-level table. -/
theorem reach_setLeaf (h : Owned K E R s) (ht : Table userFormat R s.mem r q t) (hq : q.length = 3)
    {i : Idx} {w : Word} {levels r' : Nat} {p : List Idx} {f : Nat} (hl : levels ≤ 4)
    (hr : Reach userFormat R (s.setEntry t i w).mem levels r' p f) :
    (r' = r ∧ p = q ++ [i] ∧ child w = some f) ∨
      (¬ (r' = r ∧ p = q ++ [i]) ∧ Reach userFormat R s.mem levels r' p f) := by
  have hn := node_setCell_last h.separated ht hq i w hr.mem_roots hr.admissible
    (hr.length_le.trans hl)
  by_cases hc : r' = r ∧ p = q ++ [i]
  · rw [if_pos hc] at hn
    exact Or.inl ⟨hc.1, hc.2, hn.symm.trans hr.at_path⟩
  · rw [if_neg hc] at hn
    exact Or.inr ⟨hc, hr.mem_roots, hr.admissible, hr.length_le, hn.symm.trans hr.at_path⟩

theorem table_setLeaf (h : Owned K E R s) (ht : Table userFormat R s.mem r q t) (hq : q.length = 3)
    {i : Idx} {w : Word} {r' : Nat} {p : List Idx} {f : Nat}
    (ht' : Table userFormat R (s.setEntry t i w).mem r' p f) : Table userFormat R s.mem r' p f := by
  rcases h.reach_setLeaf ht hq (by decide) ht' with ⟨-, rfl, -⟩ | ⟨-, hr⟩
  · have := ht'.length_le
    simp only [userFormat_depth, List.length_append, List.length_singleton] at this
    omega
  · exact hr

theorem leaf_setLeaf (h : Owned K E R s) (ht : Table userFormat R s.mem r q t) (hq : q.length = 3)
    {i : Idx} {w : Word} {r' : Nat} {p : List Idx} {f : Nat}
    (hl : Leaf userFormat R (s.setEntry t i w).mem r' p f) :
    (r' = r ∧ p = q ++ [i] ∧ child w = some f) ∨
      (¬ (r' = r ∧ p = q ++ [i]) ∧ Leaf userFormat R s.mem r' p f) := by
  refine (h.reach_setLeaf ht hq le_rfl hl.reach).imp_right fun hr => ?_
  exact ⟨hr.1, hl.mem_roots, hl.admissible, hl.length_eq, hr.2.at_path⟩

/-- A leaf entry is written: it becomes empty, or it maps a page that no address
space shows. -/
theorem setLeaf (h : Owned K E R s) (ht : Table userFormat R s.mem r q t) (hq : q.length = 3)
    (i : Idx) (w : Word)
    (hnew : ∀ page, child w = some page → ¬ s.pmm.Free page ∧ Unreached R s page ∧ page ∉ K ∧
      (r ∈ E → page < s.refsPages → s.refs page = 1)) :
    Owned K E R (s.setEntry t i w) := by
  have hback {levels r' p f} := @reach_setLeaf K E R s r t q h ht hq i w levels r' p f
  have hleaf {r' p f} := @leaf_setLeaf K E R s r t q h ht hq i w r' p f
  refine ⟨⟨fun h₁ h₂ => h.separated.table_unique (h.table_setLeaf ht hq h₁)
    (h.table_setLeaf ht hq h₂), fun h₁ h₂ => ?_⟩, ⟨h.freeApart.total_le, fun f hf r' p hr => ?_⟩,
    fun h₁ h₂ => ?_, fun ht' => h.nonzero (h.table_setLeaf ht hq ht'), h.free_refs,
    fun ht' => h.table_refs (h.table_setLeaf ht hq ht'), fun f hf => ?_, fun hl hr hlt => ?_⟩
  · have ht' := h.table_setLeaf ht hq h₁
    rcases hleaf h₂ with ⟨-, -, hw⟩ | ⟨-, hl⟩
    · exact (hnew _ hw).2.1 _ _ (ht'.weaken (by decide))
    · exact h.separated.leaf_ne_table ht' hl
  · rcases hback le_rfl hr with ⟨-, -, hw⟩ | ⟨-, hr'⟩
    · exact (hnew f hw).1 hf
    · exact h.freeApart.apart f hf r' p hr'
  · rcases hleaf h₁ with ⟨rfl, rfl, hw⟩ | ⟨-, hl₁⟩
    · rcases hleaf h₂ with ⟨rfl, rfl, -⟩ | ⟨-, hl₂⟩
      · exact ⟨rfl, rfl⟩
      · exact absurd hl₂.reach ((hnew _ hw).2.1 _ _)
    · rcases hleaf h₂ with ⟨-, -, hw⟩ | ⟨-, hl₂⟩
      · exact absurd hl₁.reach ((hnew _ hw).2.1 _ _)
      · exact h.single hl₁ hl₂
  · obtain ⟨hused, hun, hz⟩ := h.held f hf
    refine ⟨hused, fun r' p hr => ?_, hz⟩
    rcases hback le_rfl hr with ⟨-, -, hw⟩ | ⟨-, hr'⟩
    · exact (hnew f hw).2.2.1 hf
    · exact hun r' p hr'
  · rcases hleaf hl with ⟨rfl, -, hw⟩ | ⟨-, hl'⟩
    · exact (hnew _ hw).2.2.2 hr hlt
    · exact h.counted hl' hr hlt

/-- The page whose only entry is emptied is in no address space any more. -/
theorem unreached_setLeaf (h : Owned K E R s) (ht : Table userFormat R s.mem r q t)
    (hq : q.length = 3) {i : Idx} {f : Nat} (hl : Leaf userFormat R s.mem r (q ++ [i]) f) :
    Unreached R (s.setEntry t i 0) f := by
  intro r' p hr
  rcases h.reach_setLeaf ht hq le_rfl hr with ⟨-, -, hw⟩ | ⟨hne, hr'⟩
  · rw [child_zero] at hw
    cases hw
  · rcases hr'.table_or_leaf with ht' | hl'
    · exact h.separated.leaf_ne_table ht' hl
    · exact hne (h.single hl' hl)

end Leaves

end Owned

end Mmix.Mm
