import Mmix.Mm.HeapSizes

/-!
# What `krealloc` does to the bytes

A block that is too small is moved: `kmalloc` may split a block or expand the
heap, the bytes are copied, and the old block is freed and merged with its
neighbours. All headers that are written on the way are headers of the heap
that `kmalloc` leaves. What they hold is left open here, so a byte keeps its
value only if it lies outside of them.
-/

namespace Mmix.Mm

open Tiling List

/-- No two blocks have a common address. -/
def BlocksApart (bs : List HeapBlock) : Prop := bs.Pairwise fun b b' => b.span.Apart b'.span

/-- The block lies in pages of the heap. -/
def Heap.Owns (h : Heap) (b : HeapBlock) : Prop :=
  ∀ a, b.span.start ≤ a → a < b.span.stop → ∃ r ∈ h.runs, r.start ≤ a ∧ a < r.stop

/-- The address lies in no header. -/
def OutsideHeaders (bs : List HeapBlock) (a : Nat) : Prop := ∀ b ∈ bs, a < b.addr ∨ b.ptr ≤ a

section Blocks

variable {bs : List HeapBlock} {b c : HeapBlock}

theorem HeapBlock.span_pos (b : HeapBlock) : b.span.start < b.span.stop := by
  simp only [HeapBlock.span, headerSize]
  omega

theorem BlocksApart.apart (h : BlocksApart bs) (hb : b ∈ bs) (hc : c ∈ bs) (hne : b ≠ c) :
    b.span.Apart c.span := by
  have : Std.Symm fun b b' : HeapBlock => b.span.Apart b'.span :=
    ⟨fun _ _ => Span.Apart.symm⟩
  exact h.forall hb hc hne

/-- A pointer names one block. -/
theorem BlocksApart.blockOf {h : Heap} (ha : BlocksApart h.blocks) (hb : b ∈ h.blocks) :
    blockOf h b.ptr = some b := by
  refine blockOf_of_inj hb fun b' hb' hptr => ?_
  by_contra hne
  have hapart := ha.apart hb' hb hne
  simp only [Span.Apart, HeapBlock.span, HeapBlock.ptr, headerSize] at hapart hptr
  omega

/-- The payload of a block lies in no header. -/
theorem BlocksApart.outsideHeaders (h : BlocksApart bs) (hc : c ∈ bs) {i : Nat}
    (hi : i < c.size) : OutsideHeaders bs (c.ptr + i) := by
  intro b hb
  by_cases hbc : b = c
  · subst hbc
    exact Or.inr (Nat.le_add_right _ _)
  · have hapart := h.apart hb hc hbc
    simp only [Span.Apart, HeapBlock.span, HeapBlock.ptr, headerSize] at hapart ⊢
    omega

/-- The carved blocks are pieces of the found one. -/
theorem carve_pieces {size : Nat} (hmax : size ≤ 2 ^ 63) :
    BlocksApart (carve size b) ∧ ∀ x ∈ carve size b, x.span.Within b.span := by
  unfold carve
  split
  · rename_i hsplit
    have hrest : (b.size - size + sizeMod - headerSize) % sizeMod ≤ b.size - size - headerSize := by
      simp only [sizeMod, headerSize, heapMinSplit] at hsplit ⊢
      omega
    simp only [sizeMod, headerSize, heapMinSplit] at hsplit hrest
    refine ⟨pairwise_pair.mpr (Or.inl (Nat.le_refl _)), fun x hx => ?_⟩
    rcases mem_pair.mp hx with rfl | rfl
    · simp only [Span.Within, HeapBlock.span, headerSize]
      omega
    · simp only [Span.Within, HeapBlock.span, headerSize, sizeMod]
      omega
  · refine ⟨pairwise_singleton .., fun x hx => ?_⟩
    rw [mem_singleton.mp hx]
    exact ⟨Nat.le_refl _, Nat.le_refl _⟩

/-- New pages are apart from the blocks that lie in older ones. -/
theorem BlocksApart.grown {h : Heap} (ha : BlocksApart h.blocks) (howns : ∀ b ∈ h.blocks, h.Owns b)
    {more : List HeapBlock} (hruns : (h.grown more).runs.Pairwise Span.Apart) :
    BlocksApart (h.grown more).blocks := by
  obtain ⟨-, hmore, hcross⟩ := pairwise_append.mp hruns
  refine pairwise_append.mpr ⟨ha, pairwise_map.mp hmore, ?_⟩
  intro b hb c hc
  refine Span.apart_of_disjoint b.span_pos c.span_pos fun a hle hlt hin => ?_
  obtain ⟨r, hr, hra⟩ := howns b hb a hle hlt
  have hapart := hcross r hr c.span (mem_map_of_mem hc)
  simp only [Span.Apart] at hapart
  omega

end Blocks

section Moves

variable {places : List (Option Nat)} {h h' : Heap} {n : Nat} {r : Option Nat}

/-- What `kmalloc` does to a heap of disjoint blocks: they stay disjoint, used
ones stay, and a result lies in a block apart from the used ones. -/
structure Allocates (h : Heap) (n : Nat) (r : Option Nat) (h' : Heap) : Prop where
  apart : BlocksApart h'.blocks
  kept : ∀ c ∈ h.blocks, c.free = false → c ∈ h'.blocks
  mem : h'.mem = h.mem
  result : ∀ q, r = some q → ∃ used ∈ h'.blocks, used.ptr = q ∧ n ≤ used.size ∧
    ∀ c ∈ h.blocks, c.free = false → c.span.Apart used.span

theorem kmalloc_allocates (ha : BlocksApart h.blocks) (howns : ∀ b ∈ h.blocks, h.Owns b)
    (hmax : n ≤ 2 ^ 63) (hk : kmalloc places h n = (r, h'))
    (hruns : h'.runs.Pairwise Span.Apart) : Allocates h n r h' := by
  obtain ⟨more, -, -, ⟨rfl, rfl⟩ | ⟨q, bs, rfl, hsearch, rfl⟩⟩ := kmalloc_cases hk
  · exact ⟨ha.grown howns hruns, fun c hc _ => mem_append_left _ hc, rfl,
      fun q hq => by cases hq⟩
  obtain ⟨pre, b, post, hbs, hfree, hle, rfl, rfl⟩ := kmallocSearch_some hsearch
  have halign : n ≤ alignSize n ∧ alignSize n ≤ 2 ^ 63 := by
    simp only [alignSize, sizeMod]
    omega
  have hgrown : BlocksApart (pre ++ b :: post) := hbs ▸ ha.grown howns hruns
  obtain ⟨hpieces, hwithin⟩ := @carve_pieces b (alignSize n) halign.2
  -- A used block of the first heap is not the found one.
  have hstays {c : HeapBlock} (hc : c ∈ h.blocks) (hused : c.free = false) :
      c ∈ pre ++ b :: post ∧ c ≠ b := by
    refine ⟨hbs ▸ mem_append_left more hc, ?_⟩
    rintro rfl
    rw [hfree] at hused
    cases hused
  refine ⟨pairwise_apart_replace hgrown hpieces hwithin, fun c hc hused => ?_, rfl, ?_⟩
  · obtain ⟨hmem, hne⟩ := hstays hc hused
    simp only [mem_append, mem_cons] at hmem ⊢
    tauto
  · rintro _ ⟨⟩
    obtain ⟨used, hused, -, hptr, hsize⟩ := carve_head hle
    refine ⟨used, by simp [hused], hptr, halign.1.trans hsize, fun c hc hc' => ?_⟩
    obtain ⟨hmem, hne⟩ := hstays hc hc'
    have hself : c.span.Within c.span := ⟨Nat.le_refl _, Nat.le_refl _⟩
    exact (hgrown.apart hmem (by simp) hne).mono hself (hwithin used hused)

theorem kfree_mem (h : Heap) (ptr : Nat) : (kfree h ptr).mem = h.mem := by
  unfold kfree
  split
  · rfl
  · split <;> rfl

/-- The copy does not touch what is apart from its target. -/
theorem heapCopy_mem_of_apart {dst src size a : Nat} (ha : ¬ (dst ≤ a ∧ a < dst + size)) :
    (heapCopy h dst src size).mem a = h.mem a := if_neg ha

theorem heapCopy_mem_inside {dst src size i : Nat} (hi : i < size) :
    (heapCopy h dst src size).mem (dst + i) = h.mem (src + i) := by
  have hin : dst ≤ dst + i ∧ dst + i < dst + size := by omega
  simp only [heapCopy, if_pos hin, Nat.add_sub_cancel_left]

/-- What a call of `krealloc` on a block should do to memory: the first bytes
of the block are at the result, a refused block is still there with its bytes,
and so are the other used blocks. -/
structure KeepsData (h : Heap) (b : HeapBlock) (n : Nat) (r : Option Nat) (h' : Heap)
    (m : Nat → UInt8) : Prop where
  moved : ∀ q, r = some q → ∀ i < min b.size n, m (q + i) = h.mem (b.ptr + i)
  refused : r = none → b ∈ h'.blocks ∧ ∀ i < b.size, m (b.ptr + i) = h.mem (b.ptr + i)
  others : ∀ c ∈ h.blocks, c.free = false → c ≠ b →
    c ∈ h'.blocks ∧ ∀ i < c.size, m (c.ptr + i) = h.mem (c.ptr + i)

/-- `krealloc` keeps the data, in whatever way the headers in memory change. -/
theorem krealloc_keeps_data (places : List (Option Nat)) (h : Heap) (b : HeapBlock) (n : Nat)
    (m : Nat → UInt8) (ha : BlocksApart h.blocks) (howns : ∀ b ∈ h.blocks, h.Owns b)
    (hb : b ∈ h.blocks) (hused : b.free = false) (hpos : 1 ≤ n) (hmax : n ≤ 2 ^ 63)
    (hruns : (kmalloc places h n).2.runs.Pairwise Span.Apart)
    (hm : ∀ a, OutsideHeaders (kmalloc places h n).2.blocks a →
      m a = (krealloc places h b.ptr n).2.mem a) :
    KeepsData h b n (krealloc places h b.ptr n).1 (krealloc places h b.ptr n).2 m := by
  have hall := kmalloc_allocates ha howns hmax (Prod.eta (kmalloc places h n)).symm hruns
  have hptr : b.ptr ≠ 0 := by
    simp only [HeapBlock.ptr, headerSize]
    omega
  have hpayload {c : HeapBlock} (hc : c ∈ h.blocks) (hu : c.free = false) {i : Nat}
      (hi : i < c.size) : m (c.ptr + i) = (krealloc places h b.ptr n).2.mem (c.ptr + i) :=
    hm _ (hall.apart.outsideHeaders (hall.kept c hc hu) hi)
  by_cases hlt : b.size < n
  · rw [krealloc_move hptr (ha.blockOf hb) hlt] at hpayload hm ⊢
    cases hk : kmalloc places h n with
    | mk r h₁ =>
      simp only [hk] at hall hpayload hm ⊢
      cases r with
      | none =>
        have hsame {c : HeapBlock} (hc : c ∈ h.blocks) (hu : c.free = false) :
            c ∈ h₁.blocks ∧ ∀ i < c.size, m (c.ptr + i) = h.mem (c.ptr + i) := by
          refine ⟨hall.kept c hc hu, fun i hi => ?_⟩
          rw [hpayload hc hu hi, hall.mem]
        exact ⟨fun q hq => (by cases hq), fun _ => hsame hb hused,
          fun c hc hu _ => hsame hc hu⟩
      | some q =>
        obtain ⟨used, hmem, rfl, hsize, hfar⟩ := hall.result _ rfl
        simp only [kfree_mem] at hpayload hm
        refine ⟨?_, fun hnone => (by cases hnone), fun c hc hu hne => ⟨?_, fun i hi => ?_⟩⟩
        · rintro _ ⟨⟩ i hi
          have hib : i < b.size := Nat.lt_of_lt_of_le hi (Nat.min_le_left _ _)
          rw [hm _ (hall.apart.outsideHeaders hmem (by omega)), heapCopy_mem_inside hib,
            hall.mem]
        · refine kfree_used (hall.kept c hc hu) hu fun heq => hne ?_
          by_contra hcb
          have hapart := ha.apart hc hb hcb
          simp only [Span.Apart, HeapBlock.span, HeapBlock.ptr, headerSize] at hapart heq
          omega
        · have hout : ¬ (used.ptr ≤ c.ptr + i ∧ c.ptr + i < used.ptr + b.size) := by
            have hapart := hfar c hc hu
            simp only [Span.Apart, HeapBlock.span, HeapBlock.ptr, headerSize] at hapart ⊢
            omega
          rw [hpayload hc hu hi, heapCopy_mem_of_apart hout, hall.mem]
  · -- The block is large enough, and nothing happens.
    have hcall : krealloc places h b.ptr n = (some b.ptr, h) := by
      rw [krealloc, if_neg hptr, if_neg (Nat.ne_of_gt hpos), ha.blockOf hb]
      simp only [if_pos (Nat.le_of_not_lt hlt)]
    rw [hcall] at hpayload ⊢
    refine ⟨?_, fun hnone => (by cases hnone), fun c hc hu _ => ⟨hc, fun i => hpayload hc hu⟩⟩
    rintro _ ⟨⟩ i hi
    exact hpayload hb hused (Nat.lt_of_lt_of_le hi (Nat.min_le_left _ _))

/-- A heap of one page run with a used block of 16 bytes in front of a free one. -/
def smallHeap : Heap where
  blocks := [⟨0x100000, 16, false⟩, ⟨0x100000 + 45, 4022, true⟩]
  runs := [⟨0x100000, 0x101000⟩]
  mem := fun a => UInt8.ofNat a

/-- The used block grows to 100 bytes and is moved behind its old place. -/
theorem krealloc_keeps_data_smallHeap :
    (krealloc [] smallHeap 0x10001d 100).1 = some 0x10004a ∧
      KeepsData smallHeap ⟨0x100000, 16, false⟩ 100 (krealloc [] smallHeap 0x10001d 100).1
        (krealloc [] smallHeap 0x10001d 100).2 (krealloc [] smallHeap 0x10001d 100).2.mem := by
  have hruns : (kmalloc [] smallHeap 100).2.runs = [⟨0x100000, 0x101000⟩] := by decide +kernel
  refine ⟨by decide +kernel, krealloc_keeps_data [] smallHeap ⟨0x100000, 16, false⟩ 100 _ ?_ ?_ ?_ rfl
    (by decide) (by decide) ?_ fun _ _ => rfl⟩
  · exact List.pairwise_pair.mpr (Or.inl (by decide))
  · intro b hb a hle hlt
    refine ⟨_, List.mem_singleton.mpr rfl, ?_⟩
    rcases List.mem_pair.mp hb with rfl | rfl <;>
    · simp only [HeapBlock.span, headerSize] at hle hlt ⊢
      omega
  · exact List.mem_cons_self
  · rw [hruns]
    exact List.pairwise_singleton ..

end Moves

end Mmix.Mm
