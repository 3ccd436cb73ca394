import Mmix.Mm.HeapRetry

/-!
# Sizes that wrap

`kmalloc` rounds the requested size up to 16 bytes and `kcalloc` multiplies,
both modulo 2^64. A request that wraps is served as a small one: the caller
gets a pointer to fewer bytes than it asked for. Nothing is assumed about the
heap but that the chain of its blocks visits no address twice.
-/

namespace Mmix.Mm

open List

/-- A call that allocates. -/
inductive Alloc where
  | kmalloc (n : BitVec 64)
  | krealloc (ptr : Nat) (n : BitVec 64)
  | kcalloc (count size : BitVec 64)

namespace Alloc

/-- The call, given the results of `pmm_alloc` it will see. -/
def call (places : List (Option Nat)) (h : Heap) : Alloc → Option Nat × Heap
  | .kmalloc n => Mm.kmalloc places h n.toNat
  | .krealloc ptr n => Mm.krealloc places h ptr n.toNat
  | .kcalloc count size => Mm.kcalloc places h count.toNat size.toNat

/-- The number of bytes the caller wants, as an integer. -/
def bytes : Alloc → Nat
  | .kmalloc n => n.toNat
  | .krealloc _ n => n.toNat
  | .kcalloc count size => count.toNat * size.toNat

/-- The pointer that is passed is null or names a used block. -/
def Valid (h : Heap) : Alloc → Prop
  | .kmalloc _ => True
  | .krealloc ptr _ => ptr = 0 ∨ ∃ b ∈ h.blocks, b.free = false ∧ b.ptr = ptr
  | .kcalloc _ _ => True

/-- The call clears the bytes it returns. -/
def clears : Alloc → Bool
  | .kmalloc _ => false
  | .krealloc _ _ => false
  | .kcalloc _ _ => true

end Alloc

/-- A pointer to a used block of at least so many bytes. -/
def Backed (h : Heap) (ptr bytes : Nat) : Prop :=
  ∃ b ∈ h.blocks, b.free = false ∧ b.ptr = ptr ∧ bytes ≤ b.size

/-- A pointer that the call returns is backed by what the caller wanted, and
cleared if the call does so. -/
structure Honours (places : List (Option Nat)) (h : Heap) (a : Alloc) : Prop where
  backed : ∀ q, (a.call places h).1 = some q → Backed (a.call places h).2 q a.bytes
  cleared : ∀ q, (a.call places h).1 = some q → a.clears = true →
    ∀ i < a.bytes, (a.call places h).2.mem (q + i) = 0

/-- The blocks of the heap and the pages it will get have different addresses. -/
def Chained (places : List (Option Nat)) (h : Heap) : Prop :=
  (h.blocks.map HeapBlock.addr ++ places.reduceOption).Nodup

instance (places : List (Option Nat)) (h : Heap) : Decidable (Chained places h) :=
  inferInstanceAs (Decidable (List.Nodup _))

/-- A request finds a free block, or new pages for one. -/
def Room (places : List (Option Nat)) (h : Heap) (n : Nat) : Prop :=
  (∃ b ∈ h.blocks, b.free = true ∧ alignSize n ≤ b.size) ∨
    alignSize n ≠ 0 ∧ places.head?.join.isSome = true ∧
      alignSize n ≤ expandPages (alignSize n) * pageSize - headerSize

/-- The size wraps, and there is room for what it wraps to. -/
def Wraps (places : List (Option Nat)) (h : Heap) : Alloc → Prop
  | .kmalloc n => sizeMod - 16 < n.toNat ∧ Room places h n.toNat
  | .krealloc ptr n =>
    sizeMod - 16 < n.toNat ∧ (ptr ≠ 0 → ∃ b ∈ blockOf h ptr, b.size < n.toNat) ∧
      Room places h n.toNat
  | .kcalloc count size =>
    sizeMod - 16 < count.toNat * size.toNat ∧ count.toNat * size.toNat % sizeMod ≠ 0 ∧
      Room places h (count.toNat * size.toNat % sizeMod)

instance (places : List (Option Nat)) (h : Heap) (n : Nat) : Decidable (Room places h n) :=
  inferInstanceAs (Decidable (_ ∨ _))

instance (places : List (Option Nat)) (h : Heap) : ∀ a, Decidable (Wraps places h a)
  | .kmalloc _ => inferInstanceAs (Decidable (_ ∧ _))
  | .krealloc _ _ => inferInstanceAs (Decidable (_ ∧ _))
  | .kcalloc _ _ => inferInstanceAs (Decidable (_ ∧ _))

section Room

variable {places : List (Option Nat)} {h : Heap} {n : Nat}

/-- A request that does not fit into the pages obtained for it is never served. -/
theorem kmalloc_none_of_unfit (hfull : kmallocSearch (alignSize n) h.blocks = none)
    (hunfit : ¬ alignSize n ≤ expandPages (alignSize n) * pageSize - headerSize) :
    (kmalloc places h n).1 = none := by
  induction places generalizing h n with
  | nil =>
    unfold kmalloc
    split
    · rfl
    · simp only [hfull]
  | cons place places ih =>
    by_cases hz : n = 0
    · rw [kmalloc, if_pos hz]
    · cases place with
      | none =>
        rw [kmalloc, if_neg hz]
        simp only [hfull]
        rfl
      | some newPages =>
        rw [kmalloc_of_full hz hfull, heapExpand_some]
        apply ih
        · rw [alignSize_alignSize, ← Option.not_isSome_iff_eq_none]
          intro hsome
          exact hunfit ((kmallocSearch_concat_isSome _ hfull).mp hsome).2
        · rwa [alignSize_alignSize]

/-- `kmalloc` returns a block exactly if there is room for the rounded size. -/
theorem kmalloc_isSome_iff : (kmalloc places h n).1.isSome ↔ n ≠ 0 ∧ Room places h n := by
  by_cases hz : n = 0
  · rw [kmalloc, if_pos hz]
    exact iff_of_false (by simp) fun h => h.1 hz
  rw [and_iff_right hz]
  by_cases hfull : kmallocSearch (alignSize n) h.blocks = none
  · have hold : ¬ ∃ b ∈ h.blocks, b.free = true ∧ alignSize n ≤ b.size := by
      rintro ⟨b, hb, hfit⟩
      exact kmallocSearch_eq_none.mp hfull b hb hfit
    rw [Room, or_iff_right hold]
    by_cases hunfit : alignSize n ≤ expandPages (alignSize n) * pageSize - headerSize
    · rw [and_iff_left hunfit]
      cases places with
      | nil =>
        rw [kmalloc, if_neg hz]
        simp only [hfull]
        simp
      | cons place places =>
        cases place with
        | none =>
          rw [kmalloc, if_neg hz]
          simp only [hfull, heapExpand]
          simp
        | some newPages =>
          rw [kmalloc_of_full hz hfull, heapExpand_some]
          by_cases haligned : alignSize n = 0
          · rw [haligned, kmalloc, if_pos rfl]
            simp
          · refine iff_of_true (kmalloc_of_search haligned ?_).1 ⟨haligned, rfl⟩
            rw [alignSize_alignSize]
            exact (kmallocSearch_concat_isSome _ hfull).mpr ⟨rfl, hunfit⟩
    · rw [kmalloc_none_of_unfit hfull hunfit]
      exact iff_of_false (by simp) fun h => hunfit h.2.2
  · refine iff_of_true (kmalloc_of_search hz (Option.isSome_iff_ne_none.mpr hfull)).1 (Or.inl ?_)
    by_contra hnone
    exact hfull (kmallocSearch_eq_none.mpr fun b hb hfit => hnone ⟨b, hb, hfit⟩)

end Room

section Grant

/-- The first of the carved blocks is used, starts where the found block did
and is hardly larger than the request. -/
theorem carve_cons {size : Nat} {b : HeapBlock} (hle : size ≤ b.size) (hlt : size < sizeMod) :
    ∃ used rest, carve size b = used :: rest ∧ used.free = false ∧ used.addr = b.addr ∧
      size ≤ used.size ∧ used.size ≤ size + headerSize + heapMinSplit ∧ used.size < sizeMod ∧
      ∀ b' ∈ rest, b'.addr ≠ b.addr := by
  unfold carve
  split
  · refine ⟨_, _, rfl, rfl, rfl, Nat.le_refl _, ?_, hlt, ?_⟩
    · simp only
      omega
    · intro b' hb'
      rw [mem_singleton.mp hb']
      simp only [headerSize]
      omega
  · rename_i hkeep
    refine ⟨_, _, rfl, rfl, rfl, hle, ?_, ?_, fun b' hb' => absurd hb' not_mem_nil⟩
    · exact (Nat.le_of_not_lt hkeep).trans (Nat.mod_le _ _)
    · exact (Nat.le_of_not_lt hkeep).trans_lt (Nat.mod_lt _ (by decide))

/-- What a successful `kmalloc` hands out: a block of its own, hardly larger
than the rounded size. -/
structure Granted (h : Heap) (n q : Nat) (h' : Heap) (used : HeapBlock) : Prop where
  mem : used ∈ h'.blocks
  free : used.free = false
  ptr : used.ptr = q
  le : alignSize n ≤ used.size
  tight : used.size ≤ alignSize n + headerSize + heapMinSplit
  lt : used.size < sizeMod
  unique : ∀ b ∈ h'.blocks, b.ptr = q → b = used
  kept : ∀ b ∈ h.blocks, b.free = false → b ∈ h'.blocks ∧ b.ptr ≠ q
  bytes : h'.mem = h.mem

theorem ptr_eq_iff {b b' : HeapBlock} : b.ptr = b'.ptr ↔ b.addr = b'.addr := by
  simp only [HeapBlock.ptr]
  omega

theorem kmalloc_granted {places : List (Option Nat)} {h h' : Heap} {n q : Nat}
    (hc : Chained places h) (hk : kmalloc places h n = (some q, h')) :
    ∃ used, Granted h n q h' used := by
  obtain ⟨more, hfree, hsub, ⟨hnone, -⟩ | ⟨ptr, bs, hptr, hsearch, rfl⟩⟩ := kmalloc_cases hk
  · cases hnone
  cases hptr
  obtain ⟨pre, b, post, hbs, hb, hle, rfl, rfl⟩ := kmallocSearch_some hsearch
  have hlt : alignSize n < sizeMod := by
    have := alignSize_le n
    simp only [sizeMod] at this ⊢
    omega
  obtain ⟨used, rest, hcarve, hused, haddr, hsize, htight, hmod, hrest⟩ := carve_cons hle hlt
  -- No other block of the expanded heap has the address of the found one.
  have hnodup : ((pre ++ b :: post).map HeapBlock.addr).Nodup := by
    rw [← hbs, Heap.grown, map_append]
    exact hc.sublist (hsub.append_left _)
  have hother : ∀ b' ∈ pre ++ post, b'.addr ≠ b.addr := by
    intro b' hb' heq
    rw [map_append, map_cons, nodup_middle, nodup_cons] at hnodup
    apply hnodup.1
    rw [← map_append, ← heq]
    exact mem_map_of_mem hb'
  refine ⟨used, ⟨?_, hused, ptr_eq_iff.mpr haddr, hsize, htight, hmod, ?_, ?_, rfl⟩⟩
  · simp [hcarve]
  · intro b' hb' hptr'
    have haddr' : b'.addr = b.addr := ptr_eq_iff.mp hptr'
    simp only [hcarve, mem_append, mem_cons] at hb'
    rcases hb' with (hpre | rfl | hnew) | hpost
    · exact absurd haddr' (hother b' (mem_append_left _ hpre))
    · rfl
    · exact absurd haddr' (hrest b' hnew)
    · exact absurd haddr' (hother b' (mem_append_right _ hpost))
  · intro b' hb' hused'
    have hmem : b' ∈ pre ++ b :: post := hbs ▸ mem_append_left more hb'
    have hne : b' ≠ b := by
      rintro rfl
      rw [hb] at hused'
      cases hused'
    have hmem' : b' ∈ pre ++ post := by
      rw [mem_append, mem_cons] at hmem
      rw [mem_append]
      exact hmem.imp_right fun h => h.resolve_left hne
    refine ⟨?_, fun heq => hother b' hmem' (ptr_eq_iff.mp heq)⟩
    simp only [mem_append] at hmem' ⊢
    exact hmem'.elim (fun h => Or.inl (Or.inl h)) Or.inr

/-- A granted block is what the caller wanted exactly if the size did not wrap. -/
theorem Granted.backed_iff {h h' : Heap} {n q bytes : Nat} {used : HeapBlock}
    (hg : Granted h n q h' used) (hbytes : bytes % sizeMod = n) :
    Backed h' q bytes ↔ bytes ≤ sizeMod - 16 := by
  constructor
  · rintro ⟨b, hb, -, hptr, hle⟩
    obtain rfl := hg.unique b hb hptr
    have hlt := hg.lt
    have htight := hg.tight
    simp only [alignSize, headerSize, heapMinSplit, sizeMod] at *
    omega
  · intro hle
    have hn : bytes = n := by
      rw [← hbytes, Nat.mod_eq_of_lt]
      simp only [sizeMod] at hle ⊢
      omega
    subst hn
    exact ⟨used, hg.mem, hg.free, hg.ptr, (le_alignSize hle).trans hg.le⟩

/-- The result of `kmalloc` for a size that may have wrapped is what the caller
wanted exactly if it did not wrap, or there is no room. -/
theorem kmalloc_backed_iff {places : List (Option Nat)} {h : Heap} {n bytes : Nat}
    (hc : Chained places h) (hbytes : bytes % sizeMod = n) :
    (∀ q, (kmalloc places h n).1 = some q → Backed (kmalloc places h n).2 q bytes) ↔
      ¬ (sizeMod - 16 < bytes ∧ n ≠ 0 ∧ Room places h n) := by
  rw [← kmalloc_isSome_iff]
  cases hk : kmalloc places h n with
  | mk r h' =>
    cases r with
    | none => simp
    | some q =>
      obtain ⟨used, hg⟩ := kmalloc_granted hc hk
      simp only [Option.some.injEq, forall_eq', Option.isSome_some, and_true, not_lt]
      exact hg.backed_iff hbytes

end Grant

section Theorem

variable {places : List (Option Nat)} {h : Heap}

/-- A used block of the coalesced list was in the list. -/
theorem of_mem_heapCoalesce {bs : List HeapBlock} {b : HeapBlock} (hb : b ∈ heapCoalesce bs)
    (hused : b.free = false) : b ∈ bs := by
  fun_induction heapCoalesce bs with
  | case1 => exact hb
  | case2 => exact hb
  | case3 b' next rest hfree ih =>
    rcases mem_cons.mp hb with rfl | hb
    · simp [hfree.1] at hused
    · exact mem_cons_of_mem _ (mem_cons_of_mem _ (ih hb))
  | case4 b' next rest hfree ih =>
    rcases mem_cons.mp hb with rfl | hb
    · exact mem_cons_self
    · exact mem_cons_of_mem _ (ih hb)

/-- Freeing another block does not change what backs a pointer. -/
theorem backed_kfree {ptr q bytes : Nat} (hne : q ≠ ptr) :
    Backed (kfree h ptr) q bytes ↔ Backed h q bytes := by
  constructor
  · rintro ⟨b, hb, hused, hptr, hle⟩
    refine ⟨b, ?_, hused, hptr, hle⟩
    unfold kfree at hb
    split at hb
    · exact hb
    · split at hb
      · exact hb
      · obtain ⟨b₀, hb₀, heq⟩ := mem_map.mp (of_mem_heapCoalesce hb hused)
        split at heq
        · rw [← heq] at hused
          cases hused
        · exact heq ▸ hb₀
  · rintro ⟨b, hb, hused, hptr, hle⟩
    exact ⟨b, kfree_used hb hused (hptr ▸ hne), hused, hptr, hle⟩

theorem mod_of_bitVec (n : BitVec 64) : n.toNat % sizeMod = n.toNat := Nat.mod_eq_of_lt n.isLt

/-- A pointer names its block where no other block has it. -/
theorem blockOf_of_inj {b : HeapBlock} (hb : b ∈ h.blocks)
    (hinj : ∀ b' ∈ h.blocks, b'.ptr = b.ptr → b' = b) : blockOf h b.ptr = some b := by
  cases hf : blockOf h b.ptr with
  | none =>
    have := find?_eq_none.mp hf b hb
    simp at this
  | some b' =>
    have hptr : b'.ptr = b.ptr := by simpa using find?_some hf
    rw [hinj b' (mem_of_find?_eq_some hf) hptr]

theorem Chained.blockOf (hc : Chained places h) {b : HeapBlock} (hb : b ∈ h.blocks) :
    blockOf h b.ptr = some b := by
  refine blockOf_of_inj hb fun b' hb' hptr => ?_
  exact inj_on_of_nodup_map (nodup_append.mp hc).1 hb' hb (ptr_eq_iff.mp hptr)

theorem honours_iff_backed {a : Alloc} (hclears : a.clears = false) : Honours places h a ↔
    ∀ q, (a.call places h).1 = some q → Backed (a.call places h).2 q a.bytes := by
  refine ⟨fun hh => hh.backed, fun hb => ⟨hb, fun _ _ htrue => ?_⟩⟩
  rw [hclears] at htrue
  cases htrue

theorem ne_zero_of_wraps {n : Nat} (hlt : sizeMod - 16 < n) : n ≠ 0 :=
  Nat.ne_of_gt (Nat.zero_lt_of_lt hlt)

theorem kmalloc_honours_iff (hc : Chained places h) (n : BitVec 64) :
    Honours places h (.kmalloc n) ↔ ¬ Wraps places h (.kmalloc n) := by
  rw [honours_iff_backed rfl]
  refine (kmalloc_backed_iff (h := h) hc (mod_of_bitVec n)).trans (not_congr ?_)
  exact ⟨fun hw => ⟨hw.1, hw.2.2⟩, fun hw => ⟨hw.1, ne_zero_of_wraps hw.1, hw.2⟩⟩

theorem kcalloc_honours_iff (hc : Chained places h) (count size : BitVec 64) :
    Honours places h (.kcalloc count size) ↔ ¬ Wraps places h (.kcalloc count size) := by
  have hmod : count.toNat * size.toNat % sizeMod = count.toNat * size.toNat % sizeMod := rfl
  have hiff := kmalloc_backed_iff hc hmod
  have hcall : (Alloc.kcalloc count size).call places h =
      kcalloc places h count.toNat size.toNat := rfl
  unfold kcalloc at hcall
  cases hk : kmalloc places h (count.toNat * size.toNat % sizeMod) with
  | mk r h' =>
    simp only [hk] at hiff hcall
    cases r with
    | none =>
      refine iff_of_true ⟨?_, ?_⟩ (hiff.mp fun q hq => by cases hq)
      · rw [hcall]
        exact fun q hq => by cases hq
      · rw [hcall]
        exact fun q hq => by cases hq
    | some q =>
      constructor
      · intro hh
        refine hiff.mp fun q' hq' => ?_
        have := hh.backed q' (by rw [hcall]; exact hq')
        rwa [hcall] at this
      · intro hw
        have hback := hiff.mpr hw
        obtain ⟨used, hg⟩ := kmalloc_granted hc hk
        have hle := (hg.backed_iff rfl).mp (hback q rfl)
        have htotal : count.toNat * size.toNat % sizeMod = count.toNat * size.toNat := by
          apply Nat.mod_eq_of_lt
          simp only [sizeMod] at hle ⊢
          omega
        refine ⟨?_, ?_⟩
        · rw [hcall]
          exact hback
        · rw [hcall]
          rintro _ ⟨⟩ - i hi
          have hin : q ≤ q + i ∧ q + i < q + count.toNat * size.toNat :=
            ⟨Nat.le_add_right _ _, Nat.add_lt_add_left hi _⟩
          simp only [heapZero, htotal, if_pos hin]

/-- `krealloc` of a block that is too small moves it. -/
theorem krealloc_move {ptr n : Nat} {b : HeapBlock} (hptr : ptr ≠ 0) (hb : blockOf h ptr = some b)
    (hlt : b.size < n) : krealloc places h ptr n =
      ((kmalloc places h n).1, match (kmalloc places h n).1 with
        | none => (kmalloc places h n).2
        | some q => kfree (heapCopy (kmalloc places h n).2 q ptr b.size) ptr) := by
  have hn : n ≠ 0 := Nat.ne_of_gt (Nat.zero_lt_of_lt hlt)
  rw [krealloc, if_neg hptr, if_neg hn, hb]
  simp only [if_neg (Nat.not_le.mpr hlt)]
  cases kmalloc places h n with
  | mk r h' => cases r <;> rfl

theorem krealloc_honours_iff (hc : Chained places h) (ptr : Nat) (n : BitVec 64)
    (hv : (Alloc.krealloc ptr n).Valid h) :
    Honours places h (.krealloc ptr n) ↔ ¬ Wraps places h (.krealloc ptr n) := by
  have hiff := kmalloc_backed_iff (h := h) hc (mod_of_bitVec n)
  have hcall : (Alloc.krealloc ptr n).call places h = krealloc places h ptr n.toNat := rfl
  rw [honours_iff_backed rfl, hcall]
  rcases hv with rfl | ⟨b, hb, hused, rfl⟩
  · rw [krealloc, if_pos rfl]
    refine hiff.trans (not_congr ⟨fun hw => ?_, fun hw => ?_⟩)
    · exact ⟨hw.1, fun hz => absurd rfl hz, hw.2.2⟩
    · exact ⟨hw.1, ne_zero_of_wraps hw.1, hw.2.2⟩
  · have hblock := hc.blockOf hb
    have hptr : b.ptr ≠ 0 := by
      simp only [HeapBlock.ptr, headerSize]
      omega
    by_cases hlt : b.size < n.toNat
    · -- The block is moved, and the old one is freed.
      have hmoved : (∀ q, (krealloc places h b.ptr n.toNat).1 = some q →
          Backed (krealloc places h b.ptr n.toNat).2 q n.toNat) ↔
          ∀ q, (kmalloc places h n.toNat).1 = some q →
            Backed (kmalloc places h n.toNat).2 q n.toNat := by
        rw [krealloc_move hptr hblock hlt]
        refine forall_congr' fun q => imp_congr_right fun hq => ?_
        have hsome : (kmalloc places h n.toNat).1 = some q := hq
        obtain ⟨used, hg⟩ := kmalloc_granted hc (Prod.ext hsome rfl)
        simp only [hsome]
        exact backed_kfree (h := heapCopy _ q b.ptr b.size) (hg.kept b hb hused).2.symm
      refine hmoved.trans (hiff.trans (not_congr ⟨fun hw => ?_, fun hw => ?_⟩))
      · exact ⟨hw.1, fun _ => ⟨b, hblock, hlt⟩, hw.2.2⟩
      · exact ⟨hw.1, ne_zero_of_wraps hw.1, hw.2.2⟩
    · -- The block is large enough as it is.
      refine iff_of_true ?_ ?_
      · by_cases hz : n.toNat = 0
        · rw [krealloc, if_neg hptr, if_pos hz]
          exact fun q hq => by cases hq
        · rw [krealloc, if_neg hptr, if_neg hz, hblock]
          simp only [if_pos (Nat.le_of_not_lt hlt)]
          rintro _ ⟨⟩
          exact ⟨b, hb, hused, rfl, Nat.le_of_not_lt hlt⟩
      · rintro ⟨-, hsmall, -⟩
        obtain ⟨b', hb', hlt'⟩ := hsmall hptr
        rw [hblock] at hb'
        cases hb'
        exact hlt hlt'

/-- An allocation that is not refused is as large as the caller wanted, exactly
if its size does not wrap into one that there is room for. -/
theorem alloc_honours_iff (places : List (Option Nat)) (h : Heap) (a : Alloc)
    (hc : Chained places h) (hv : a.Valid h) : Honours places h a ↔ ¬ Wraps places h a := by
  cases a with
  | kmalloc n => exact kmalloc_honours_iff hc n
  | krealloc ptr n => exact krealloc_honours_iff hc ptr n hv
  | kcalloc count size => exact kcalloc_honours_iff hc count size

/-- A request of 5000 bytes on the first heap. -/
theorem alloc_honours_5000 : Honours [] (heapInit (some 0x100000)) (.kmalloc 5000) :=
  (alloc_honours_iff [] (heapInit (some 0x100000)) (.kmalloc 5000) (by decide) trivial).mpr
    (by decide)

/-- The largest size is served with an empty block. -/
theorem kmalloc_wraps :
    (kmalloc [] (heapInit (some 0x100000)) (2 ^ 64 - 1)).1 = some (0x100000 + 29) ∧
      ∀ b ∈ (kmalloc [] (heapInit (some 0x100000)) (2 ^ 64 - 1)).2.blocks,
        b.ptr = 0x100000 + 29 → b.size = 0 := by
  decide +kernel

end Theorem

end Mmix.Mm
