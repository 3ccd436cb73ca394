import Mmix.Mm.HeapShape

/-!
# The retry of `kmalloc`

When no free block fits, `kmalloc` has `heap_expand` obtain pages for the
request and searches again. The header of the new block takes a part of these
pages that `heap_expand` does not count. A request that fills its pages up to
less than a header therefore does not fit into the block made for it, and
`kmalloc` expands the heap again.
-/

namespace Mmix.Mm

open Option

variable {size place : Nat} {bs : List HeapBlock}

theorem kmallocSearch_eq_none :
    kmallocSearch size bs = none ↔ ∀ b ∈ bs, ¬ (b.free ∧ size ≤ b.size) := by
  induction bs with
  | nil => simp [kmallocSearch]
  | cons b bs ih =>
    rw [kmallocSearch]
    by_cases hfit : b.free = true ∧ size ≤ b.size
    · rw [if_pos hfit]
      refine iff_of_false ?_ fun hall => hall b List.mem_cons_self hfit
      split <;> exact some_ne_none _
    · rw [if_neg hfit, map_eq_none_iff, ih, List.forall_mem_cons]
      exact (and_iff_right hfit).symm

/-- A block behind a list without a fitting one is found if it fits. -/
theorem kmallocSearch_concat_isSome (b : HeapBlock) (hfull : kmallocSearch size bs = none) :
    (kmallocSearch size (bs ++ [b])).isSome ↔ b.free ∧ size ≤ b.size := by
  rw [← not_iff_not, not_isSome_iff_eq_none, kmallocSearch_eq_none]
  constructor
  · intro hnone
    exact hnone b (by simp)
  · intro hb b' hmem
    rcases List.mem_append.mp hmem with hold | hnew
    · exact kmallocSearch_eq_none.mp hfull b' hold
    · rw [List.mem_singleton.mp hnew]
      exact hb

/-- The request fits into the pages obtained for it with a header: it is small,
or its last page keeps room for the rounding to 16 bytes and the header. -/
def RetryFits (size : Nat) : Prop :=
  size ≤ 4 * pageSize - 32 ∨ (size - 1) % pageSize < pageSize - 32

/-- The payload of a new run holds the request exactly when it fits. -/
theorem alignSize_le_expandPages_iff (hpos : 1 ≤ size) (hmax : size ≤ 2 ^ 63) :
    alignSize size ≤ expandPages (alignSize size) * pageSize - headerSize ↔ RetryFits size := by
  have halign : alignSize size = (size + 15) / 16 * 16 := by
    simp only [alignSize, sizeMod]
    omega
  simp only [expandPages, halign, RetryFits, pageSize, headerSize, sizeMod]
  split <;> omega

theorem kmalloc_of_search {places : List (Option Nat)} {h : Heap} (hpos : size ≠ 0)
    (hfound : (kmallocSearch (alignSize size) h.blocks).isSome) :
    (kmalloc places h size).1.isSome ∧ (kmalloc places h size).2.runs = h.runs := by
  obtain ⟨⟨ptr, blocks⟩, hsearch⟩ := isSome_iff_exists.mp hfound
  rw [kmalloc, if_neg hpos]
  simp only [hsearch, isSome_some, and_self]

/-- A search that fails is repeated on the expanded heap. -/
theorem kmalloc_of_full {places : List (Option Nat)} {h : Heap} (hpos : size ≠ 0)
    (hfull : kmallocSearch (alignSize size) h.blocks = none) :
    kmalloc (some place :: places) h size =
      kmalloc places (heapExpand h (alignSize size) (some place)).2 (alignSize size) := by
  rw [kmalloc, if_neg hpos]
  simp only [hfull]
  rfl

/-- After a failed search and an expansion, the search succeeds, `kmalloc`
returns a block, and it has expanded the heap once, exactly when the request
fits into the pages obtained for it. -/
theorem kmalloc_expands_once_iff (h : Heap) (size place : Nat) (hpos : 1 ≤ size)
    (hmax : size ≤ 2 ^ 63) (hfull : kmallocSearch (alignSize size) h.blocks = none) :
    ((kmallocSearch (alignSize size)
        (heapExpand h (alignSize size) (some place)).2.blocks).isSome ∧
      ∀ places, (kmalloc (some place :: places) h size).1.isSome ∧
        (kmalloc (some place :: places) h size).2.runs.length = h.runs.length + 1) ↔
      RetryFits size := by
  have hretry : (kmallocSearch (alignSize size)
      (heapExpand h (alignSize size) (some place)).2.blocks).isSome ↔ RetryFits size := by
    rw [← alignSize_le_expandPages_iff hpos hmax]
    refine (kmallocSearch_concat_isSome _ hfull).trans ?_
    exact and_iff_right rfl
  rw [hretry]
  refine and_iff_left_of_imp fun hfits places => ?_
  have hle : size ≤ sizeMod - 16 := by
    simp only [sizeMod]
    omega
  have haligned : alignSize size ≠ 0 := by
    have := le_alignSize hle
    omega
  have hfound : (kmallocSearch (alignSize (alignSize size))
      (heapExpand h (alignSize size) (some place)).2.blocks).isSome := by
    rw [alignSize_alignSize]
    exact hretry.mpr hfits
  obtain ⟨hsome, hruns⟩ := @kmalloc_of_search _ places _ haligned hfound
  rw [kmalloc_of_full (by omega) hfull]
  refine ⟨hsome, ?_⟩
  rw [hruns]
  exact List.length_append

/-- A request of 5000 bytes on an empty heap. -/
theorem kmalloc_expands_once_5000 :
    kmallocSearch (alignSize 5000) (Heap.mk [] [] fun _ => 0).blocks = none ∧
      (((kmallocSearch (alignSize 5000)
        (heapExpand ⟨[], [], fun _ => 0⟩ (alignSize 5000) (some 0x100000)).2.blocks).isSome ∧
      ∀ places, (kmalloc (some 0x100000 :: places) ⟨[], [], fun _ => 0⟩ 5000).1.isSome ∧
        (kmalloc (some 0x100000 :: places) ⟨[], [], fun _ => 0⟩ 5000).2.runs.length = 0 + 1) ↔
      RetryFits 5000) :=
  ⟨by decide, kmalloc_expands_once_iff ⟨[], [], fun _ => 0⟩ 5000 0x100000 (by decide) (by decide)
    (by decide)⟩

/-- On the fresh heap a request of sixteen pages finds nothing in the sixteen
pages obtained for it, and fails when there are no further ones. -/
theorem kmalloc_sixteen_pages_fails :
    kmallocSearch (alignSize 65536) (heapInit (some 0x100000)).blocks = none ∧
      (heapExpand (heapInit (some 0x100000)) (alignSize 65536) (some 0x200000)).1 = true ∧
      kmallocSearch (alignSize 65536) (heapExpand (heapInit (some 0x100000)) (alignSize 65536)
        (some 0x200000)).2.blocks = none ∧
      (kmalloc [some 0x200000, none] (heapInit (some 0x100000)) 65536).1 = none := by
  decide +kernel

end Mmix.Mm
