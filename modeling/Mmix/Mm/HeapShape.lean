import Mmix.Mm.Kheap

/-!
# Shape of the kernel heap

The blocks of the heap tile its page runs. Allocation keeps that shape and
every used block; a release keeps it as long as its coalescing walk absorbs
no first block of a page run.
-/

namespace Mmix.Mm

open Tiling List

/-- Page runs that `pmm_alloc` can return one after the other: aligned, not
null, and without a common address. -/
structure RunsOk (runs : List Span) : Prop where
  apart : runs.Pairwise Span.Apart
  bounds : ∀ r ∈ runs, r.start % pageSize = 0 ∧ 0 < r.start ∧ r.stop ≤ sizeMod

theorem runsOk_iff (runs : List Span) : RunsOk runs ↔ runs.Pairwise Span.Apart ∧
    ∀ r ∈ runs, r.start % pageSize = 0 ∧ 0 < r.start ∧ r.stop ≤ sizeMod :=
  ⟨fun h => ⟨h.apart, h.bounds⟩, fun h => ⟨h.1, h.2⟩⟩

instance (runs : List Span) : Decidable (RunsOk runs) := decidable_of_iff' _ (runsOk_iff runs)

theorem RunsOk.init {runs more : List Span} (h : RunsOk (runs ++ more)) : RunsOk runs where
  apart := (pairwise_append.mp h.apart).1
  bounds := fun r hr => h.bounds r (mem_append_left _ hr)

/-- The blocks tile the page runs. -/
structure HeapShape (h : Heap) : Prop where
  layout : Layout HeapBlock.span h.runs h.blocks
  runs : RunsOk h.runs

section Shape

variable {h : Heap}

theorem HeapShape.apart (hs : HeapShape h) {b b' : HeapBlock} (hb : b ∈ h.blocks)
    (hb' : b' ∈ h.blocks) (hne : b ≠ b') : b.span.Apart b'.span := by
  have : Std.Symm fun b b' : HeapBlock => b.span.Apart b'.span :=
    ⟨fun _ _ => Span.Apart.symm⟩
  exact (hs.layout.pairwise_apart hs.runs.apart).forall hb hb' hne

/-- A pointer names at most one block. -/
theorem HeapShape.ptr_inj (hs : HeapShape h) {b b' : HeapBlock} (hb : b ∈ h.blocks)
    (hb' : b' ∈ h.blocks) (hptr : b.ptr = b'.ptr) : b = b' := by
  by_contra hne
  have := hs.apart hb hb' hne
  simp only [Span.Apart, HeapBlock.span, HeapBlock.ptr, headerSize] at this hptr
  omega

/-- Block sizes stay well below the wrap of `size_t`. -/
theorem HeapShape.size_le (hs : HeapShape h) {b : HeapBlock} (hb : b ∈ h.blocks) :
    b.size + headerSize + pageSize ≤ sizeMod := by
  obtain ⟨r, hr, hw⟩ := hs.layout.within hb
  obtain ⟨hmod, hpos, hstop⟩ := hs.runs.bounds r hr
  simp only [Span.Within, HeapBlock.span, pageSize] at hw hmod ⊢
  omega

end Shape

section Coalesce

theorem heapCoalesce_ne_nil {bs : List HeapBlock} (h : bs ≠ []) : heapCoalesce bs ≠ [] := by
  fun_cases heapCoalesce bs <;> simp_all

theorem mem_heapCoalesce {bs : List HeapBlock} {b : HeapBlock} (hb : b ∈ bs)
    (hused : b.free = false) : b ∈ heapCoalesce bs := by
  fun_induction heapCoalesce bs with
  | case1 => exact hb
  | case2 => exact hb
  | case3 b' next rest hfree ih =>
    rcases mem_cons.mp hb with rfl | hb
    · simp [hused] at hfree
    · rcases mem_cons.mp hb with rfl | hb
      · simp [hused] at hfree
      · exact mem_cons_of_mem _ (ih hb)
  | case4 b' next rest hfree ih =>
    rcases mem_cons.mp hb with rfl | hb
    · exact mem_cons_self
    · exact mem_cons_of_mem _ (ih hb)

/-- The walk treats two parts of the list separately when it does not absorb
the first block of the second part. -/
theorem heapCoalesce_append (bs rest : List HeapBlock)
    (h : ∀ b ∈ heapAbsorbed (bs ++ rest), ∀ c ∈ rest.head?, b.addr ≠ c.addr) :
    heapCoalesce (bs ++ rest) = heapCoalesce bs ++ heapCoalesce rest ∧
      heapAbsorbed (bs ++ rest) = heapAbsorbed bs ++ heapAbsorbed rest := by
  fun_induction heapCoalesce bs with
  | case1 => exact ⟨rfl, rfl⟩
  | case2 b =>
    cases rest with
    | nil => exact ⟨rfl, rfl⟩
    | cons c rest =>
      have hfree : ¬ (b.free = true ∧ c.free = true) := by
        intro hfree
        have : c ∈ heapAbsorbed ([b] ++ c :: rest) := by
          simp [heapAbsorbed, hfree.1, hfree.2]
        exact h c this c rfl rfl
      simp only [singleton_append, heapCoalesce, heapAbsorbed, if_neg hfree]
      exact ⟨trivial, rfl⟩
  | case3 b next bs hfree ih =>
    have habs : heapAbsorbed (b :: next :: bs ++ rest) = next :: heapAbsorbed (bs ++ rest) := by
      simp only [cons_append, heapAbsorbed, if_pos hfree]
    have := ih fun b' hb' => h b' (habs ▸ mem_cons_of_mem _ hb')
    simp only [cons_append, heapCoalesce, heapAbsorbed, if_pos hfree, this.1, this.2]
    exact ⟨trivial, trivial⟩
  | case4 b next bs hfree ih =>
    have habs : heapAbsorbed (b :: next :: bs ++ rest) =
        heapAbsorbed (next :: bs ++ rest) := by
      simp only [cons_append, heapAbsorbed, if_neg hfree]
    have := ih fun b' hb' => h b' (habs ▸ hb')
    simp only [cons_append] at this
    simp only [cons_append, heapCoalesce, heapAbsorbed, if_neg hfree, this.1, this.2]
    exact ⟨trivial, trivial⟩

theorem tiles_heapCoalesce {a c : Nat} {bs : List HeapBlock}
    (h : Tiles HeapBlock.span a bs c) (hc : c ≤ sizeMod) :
    Tiles HeapBlock.span a (heapCoalesce bs) c := by
  fun_induction heapCoalesce bs generalizing a with
  | case1 => exact h
  | case2 => exact h
  | case3 b next rest hfree ih =>
    obtain ⟨hb, hle, hnext, hle', hrest⟩ := h
    have hstop := hrest.le
    simp only [HeapBlock.span, headerSize] at hb hnext hle' hle hstop hrest
    -- The merged size does not wrap: the merged block ends within the range.
    have hmod : (b.size + headerSize + next.size) % sizeMod =
        b.size + headerSize + next.size := by
      apply Nat.mod_eq_of_lt
      simp only [headerSize]
      omega
    refine ⟨hb, ?_, ?_⟩
    · simp only [HeapBlock.span, headerSize]
      omega
    · have hend : b.addr + headerSize + (b.size + headerSize + next.size) % sizeMod =
          next.addr + 29 + next.size := by
        rw [hmod, hnext]
        simp only [headerSize]
        omega
      simp only [HeapBlock.span, hend]
      exact ih hrest
  | case4 b next rest hfree ih => exact ⟨h.1, h.2.1, ih h.2.2⟩

/-- A coalescing walk that absorbs no first block of a page run keeps the
blocks tiling the runs. -/
theorem layout_heapCoalesce {rs : List Span} {bs : List HeapBlock}
    (h : Layout HeapBlock.span rs bs) (hstop : ∀ r ∈ rs, r.stop ≤ sizeMod)
    (habs : ∀ b ∈ heapAbsorbed bs, ∀ r ∈ rs, b.addr ≠ r.start) :
    Layout HeapBlock.span rs (heapCoalesce bs) := by
  induction h with
  | nil => exact Layout.nil
  | @cons r rs seg rest hne htiles hrest ih =>
    have hsplit := heapCoalesce_append seg rest (by
      intro b hb c hc
      cases hrest with
      | nil => cases hc
      | @cons r' rs' seg' rest' hne' htiles' hrest' =>
        obtain ⟨c', seg', rfl⟩ := exists_cons_of_ne_nil hne'
        obtain rfl : c' = c := by simpa using hc
        have hc' : c'.addr = r'.start := htiles'.1
        rw [hc']
        exact habs b hb r' (by simp))
    rw [hsplit.1]
    refine Layout.cons (heapCoalesce_ne_nil hne)
      (tiles_heapCoalesce htiles (hstop r mem_cons_self)) (ih ?_ ?_)
    · exact fun r' hr' => hstop r' (mem_cons_of_mem _ hr')
    · intro b hb r' hr'
      apply habs b _ r' (mem_cons_of_mem _ hr')
      rw [hsplit.2]
      exact mem_append_right _ hb

end Coalesce

section Kmalloc

theorem alignSize_le (size : Nat) : alignSize size ≤ sizeMod - 16 := by
  simp only [alignSize, sizeMod]
  omega

theorem le_alignSize {size : Nat} (h : size ≤ sizeMod - 16) : size ≤ alignSize size := by
  simp only [alignSize, sizeMod] at *
  omega

theorem alignSize_alignSize (size : Nat) : alignSize (alignSize size) = alignSize size := by
  have h := alignSize_le size
  have hdvd : alignSize size % 16 = 0 := by simp [alignSize]
  rw [alignSize.eq_1 (alignSize size)]
  simp only [sizeMod] at *
  omega

/-- The blocks that take the place of the block found by `kmalloc`. -/
def carve (size : Nat) (b : HeapBlock) : List HeapBlock :=
  if (size + headerSize + heapMinSplit) % sizeMod < b.size then
    [{ b with size := size, free := false },
      { addr := b.addr + headerSize + size
        size := (b.size - size + sizeMod - headerSize) % sizeMod
        free := true }]
  else [{ b with free := false }]

theorem carve_head {size : Nat} {b : HeapBlock} (h : size ≤ b.size) :
    ∃ used ∈ carve size b, used.free = false ∧ used.ptr = b.ptr ∧ size ≤ used.size := by
  unfold carve
  split
  · exact ⟨{ b with size := size, free := false }, by simp, rfl, rfl, Nat.le_refl _⟩
  · exact ⟨{ b with free := false }, by simp, rfl, rfl, h⟩

/-- The first block that is free and large enough is carved. -/
theorem kmallocSearch_some {size ptr : Nat} {bs bs' : List HeapBlock}
    (h : kmallocSearch size bs = some (ptr, bs')) :
    ∃ pre b post, bs = pre ++ b :: post ∧ b.free = true ∧ size ≤ b.size ∧ ptr = b.ptr ∧
      bs' = pre ++ carve size b ++ post := by
  induction bs generalizing bs' with
  | nil => cases h
  | cons b bs ih =>
    unfold kmallocSearch at h
    by_cases hfit : b.free = true ∧ size ≤ b.size
    · rw [if_pos hfit] at h
      refine ⟨[], b, bs, rfl, hfit.1, hfit.2, ?_⟩
      unfold carve
      split at h
      · rename_i hsplit
        cases h
        rw [if_pos hsplit]
        exact ⟨rfl, rfl⟩
      · rename_i hsplit
        cases h
        rw [if_neg hsplit]
        exact ⟨rfl, rfl⟩
    · rw [if_neg hfit] at h
      obtain ⟨⟨ptr', bs''⟩, hrec, heq⟩ := Option.map_eq_some_iff.mp h
      cases heq
      obtain ⟨pre, b', post, rfl, hfree, hle, hptr, rfl⟩ := ih hrec
      exact ⟨b :: pre, b', post, rfl, hfree, hle, hptr, rfl⟩

/-- The carved blocks tile the span of the block they replace. -/
theorem tiles_carve {h : Heap} (hs : HeapShape h) {size : Nat} {b : HeapBlock}
    (hb : b ∈ h.blocks) (hle : size ≤ b.size) :
    Tiles HeapBlock.span b.span.start (carve size b) b.span.stop := by
  have hsize := hs.size_le hb
  have hmod : (size + headerSize + heapMinSplit) % sizeMod =
      size + headerSize + heapMinSplit := by
    apply Nat.mod_eq_of_lt
    simp only [headerSize, heapMinSplit, pageSize, sizeMod] at *
    omega
  unfold carve
  rw [hmod]
  split
  · rename_i hsplit
    have hrest : (b.size - size + sizeMod - headerSize) % sizeMod = b.size - size - headerSize := by
      simp only [headerSize, heapMinSplit, pageSize, sizeMod] at *
      omega
    refine ⟨rfl, ?_, rfl, ?_, ?_⟩
    · exact (Nat.le_add_right _ _).trans (Nat.le_add_right _ _)
    · exact (Nat.le_add_right _ _).trans (Nat.le_add_right _ _)
    · simp only [Tiles, HeapBlock.span, hrest]
      simp only [headerSize, heapMinSplit] at hsplit ⊢
      omega
  · exact ⟨rfl, (Nat.le_add_right _ _).trans (Nat.le_add_right _ _), rfl⟩

/-- Used blocks of the first heap are still there in the second. -/
def UsedKept (h h' : Heap) : Prop := ∀ b ∈ h.blocks, b.free = false → b ∈ h'.blocks

/-- What a found block means for the whole heap. -/
theorem kmallocSearch_spec {h : Heap} (hs : HeapShape h) {size ptr : Nat}
    {bs' : List HeapBlock} (hsearch : kmallocSearch size h.blocks = some (ptr, bs')) :
    HeapShape { h with blocks := bs' } ∧ UsedKept h { h with blocks := bs' } ∧
      (∃ b ∈ bs', b.free = false ∧ b.ptr = ptr ∧ size ≤ b.size) ∧
      ∀ b ∈ h.blocks, b.free = false → b.ptr ≠ ptr := by
  obtain ⟨pre, b, post, hbs, hfree, hle, hptr, hbs'⟩ := kmallocSearch_some hsearch
  have hb : b ∈ h.blocks := by simp [hbs]
  have hne : carve size b ≠ [] := by
    unfold carve
    split <;> exact cons_ne_nil _ _
  have hlayout : Layout HeapBlock.span h.runs bs' := by
    rw [hbs']
    exact Layout.replace (hbs ▸ hs.layout) hne (tiles_carve hs hb hle)
  refine ⟨⟨hlayout, hs.runs⟩, ?_, ?_, ?_⟩
  · intro b' hb' hused
    have hne' : b' ≠ b := by
      rintro rfl
      rw [hfree] at hused
      cases hused
    rw [hbs] at hb'
    simp only [mem_append, mem_cons] at hb'
    simp only [hbs', mem_append]
    tauto
  · obtain ⟨used, hmem, hspec⟩ := carve_head hle
    refine ⟨used, ?_, hptr ▸ hspec⟩
    simp [hbs', hmem]
  · rintro b' hb' hused heq
    obtain rfl := hs.ptr_inj hb' hb (heq.trans hptr)
    rw [hfree] at hused
    cases hused

/-- The heap after `heap_expand` has added blocks, each with a page run of its own. -/
def Heap.grown (h : Heap) (more : List HeapBlock) : Heap :=
  { h with blocks := h.blocks ++ more, runs := h.runs ++ more.map HeapBlock.span }

theorem Heap.grown_nil (h : Heap) : h.grown [] = h := by
  simp only [Heap.grown, append_nil, map_nil]

theorem Heap.grown_cons (h : Heap) (b : HeapBlock) (more : List HeapBlock) :
    h.grown (b :: more) = (h.grown [b]).grown more := by
  simp only [Heap.grown, map_cons, append_assoc, singleton_append, map_nil]

/-- The block that `heap_expand` makes of new pages. -/
def newBlock (minSize newPages : Nat) : HeapBlock where
  addr := newPages
  size := expandPages minSize * pageSize - headerSize
  free := true

theorem heapExpand_some (h : Heap) (minSize newPages : Nat) :
    heapExpand h minSize (some newPages) = (true, h.grown [newBlock minSize newPages]) := by
  have hpages : 4 ≤ expandPages minSize := by
    simp only [expandPages]
    split <;> omega
  simp only [heapExpand, Heap.grown, newBlock, map_cons, map_nil, HeapBlock.span,
    headerSize, pageSize]
  congr 5
  omega

/-- What a call of `kmalloc` does: it may expand the heap several times, and
then it fails or takes the first block that fits. -/
theorem kmalloc_cases {places : List (Option Nat)} {h h' : Heap} {size : Nat} {r : Option Nat}
    (hk : kmalloc places h size = (r, h')) :
    ∃ more, (∀ b ∈ more, b.free = true) ∧ (more.map HeapBlock.addr).Sublist places.reduceOption ∧
      (r = none ∧ h' = h.grown more ∨
        ∃ ptr bs, r = some ptr ∧ kmallocSearch (alignSize size) (h.grown more).blocks =
          some (ptr, bs) ∧ h' = { h.grown more with blocks := bs }) := by
  induction places generalizing h size with
  | nil =>
    refine ⟨[], by simp, by simp, ?_⟩
    rw [Heap.grown_nil]
    unfold kmalloc at hk
    split at hk
    · exact Or.inl ⟨(Prod.mk.inj hk).1.symm, (Prod.mk.inj hk).2.symm⟩
    · dsimp only at hk
      split at hk
      next ptr bs hsearch =>
        exact Or.inr ⟨ptr, bs, (Prod.mk.inj hk).1.symm, hsearch, (Prod.mk.inj hk).2.symm⟩
      next => exact Or.inl ⟨(Prod.mk.inj hk).1.symm, (Prod.mk.inj hk).2.symm⟩
  | cons place places ih =>
    unfold kmalloc at hk
    split at hk
    · refine ⟨[], by simp, by simp, Or.inl ⟨(Prod.mk.inj hk).1.symm, ?_⟩⟩
      rw [Heap.grown_nil]
      exact (Prod.mk.inj hk).2.symm
    · dsimp only at hk
      split at hk
      next ptr bs hsearch =>
        refine ⟨[], by simp, by simp, Or.inr ⟨ptr, bs, (Prod.mk.inj hk).1.symm, ?_, ?_⟩⟩
        · rw [Heap.grown_nil]
          exact hsearch
        · rw [Heap.grown_nil]
          exact (Prod.mk.inj hk).2.symm
      next hsearch =>
        cases place with
        | none =>
          refine ⟨[], by simp, by simp, Or.inl ⟨(Prod.mk.inj hk).1.symm, ?_⟩⟩
          rw [Heap.grown_nil]
          exact (Prod.mk.inj hk).2.symm
        | some newPages =>
          rw [heapExpand_some] at hk
          obtain ⟨more, hfree, hsub, hcases⟩ := ih hk
          refine ⟨newBlock (alignSize size) newPages :: more, ?_, ?_, ?_⟩
          · exact forall_mem_cons.mpr ⟨rfl, hfree⟩
          · exact hsub.cons_cons newPages
          · rw [Heap.grown_cons]
            rwa [alignSize_alignSize] at hcases

/-- New page runs with a block each keep the shape. -/
theorem HeapShape.grown {h : Heap} (hs : HeapShape h) {more : List HeapBlock}
    (hruns : RunsOk (h.grown more).runs) : HeapShape (h.grown more) := by
  refine ⟨?_, hruns⟩
  induction more generalizing h with
  | nil =>
    rw [Heap.grown_nil]
    exact hs.layout
  | cons b more ih =>
    rw [Heap.grown_cons] at hruns ⊢
    refine ih ⟨hs.layout.snoc ?_, RunsOk.init hruns⟩ hruns
    simp only [HeapBlock.span]
    omega

/-- What `kmalloc` does: it keeps the shape and the used blocks, and a result
points to a used block of at least the aligned size that was not used before. -/
theorem kmalloc_spec {places : List (Option Nat)} {h h' : Heap} {size : Nat} {r : Option Nat}
    (hk : kmalloc places h size = (r, h')) (hs : HeapShape h) (hruns : RunsOk h'.runs) :
    HeapShape h' ∧ UsedKept h h' ∧ ∀ ptr, r = some ptr →
      (∃ b ∈ h'.blocks, b.free = false ∧ b.ptr = ptr ∧ alignSize size ≤ b.size) ∧
      ∀ b ∈ h.blocks, b.free = false → b.ptr ≠ ptr := by
  obtain ⟨more, -, -, hcases⟩ := kmalloc_cases hk
  have hold : UsedKept h (h.grown more) := fun b hb _ => mem_append_left _ hb
  rcases hcases with ⟨rfl, rfl⟩ | ⟨ptr, bs, rfl, hsearch, rfl⟩
  · exact ⟨hs.grown hruns, hold, fun ptr hptr => by cases hptr⟩
  · obtain ⟨hshape, hkept, hnew, hfresh⟩ := kmallocSearch_spec (hs.grown hruns) hsearch
    refine ⟨hshape, fun b hb hu => hkept b (hold b hb hu) hu, fun ptr' hptr => ?_⟩
    cases hptr
    exact ⟨hnew, fun b hb hu => hfresh b (hold b hb hu) hu⟩

end Kmalloc

section Kfree

variable {h : Heap} {ptr : Nat}

/-- Freeing a pointer merges nothing into the block before a page run. -/
def FreeKeepsRuns (h : Heap) (ptr : Nat) : Prop :=
  ∀ b ∈ heapAbsorbed (markFree ptr h.blocks), ∀ r ∈ h.runs, b.addr ≠ r.start

instance (h : Heap) (ptr : Nat) : Decidable (FreeKeepsRuns h ptr) :=
  inferInstanceAs (Decidable (∀ b ∈ _, ∀ r ∈ _, _))

theorem kfree_runs (h : Heap) (ptr : Nat) : (kfree h ptr).runs = h.runs := by
  unfold kfree
  split
  · rfl
  · split <;> rfl

theorem markFree_span (b : HeapBlock) :
    (if b.ptr = ptr then { b with free := true } else b).span = b.span := by
  split <;> rfl

theorem kfree_shape (hs : HeapShape h) (hkeep : FreeKeepsRuns h ptr) :
    HeapShape (kfree h ptr) := by
  unfold kfree
  split
  · exact hs
  · split
    · exact hs
    · exact ⟨layout_heapCoalesce (hs.layout.map markFree_span)
        (fun r hr => (hs.runs.bounds r hr).2.2) hkeep, hs.runs⟩

/-- `kfree` keeps every used block but the freed one. -/
theorem kfree_used {b : HeapBlock} (hb : b ∈ h.blocks) (hused : b.free = false)
    (hne : b.ptr ≠ ptr) : b ∈ (kfree h ptr).blocks := by
  unfold kfree
  split
  · exact hb
  · split
    · exact hb
    · refine mem_heapCoalesce (mem_map.mpr ⟨b, hb, ?_⟩) hused
      rw [if_neg hne]

end Kfree

end Mmix.Mm
