import Mmix.Fs.Pipe
import Mmix.Mm.HeapSizes

/-!
# Where a write to a file goes

`vfs_write` over the heap of the kernel: the end of the write is computed in `size_t`, the block
of the file is enlarged to it by `krealloc`, and the bytes are copied to the offset in the block.
The sum may wrap, and so may the size that `kmalloc` rounds up.
-/

namespace Mmix.Fs

open Mm

/-- The fields of a node of type `VFS_FILE` that a write uses. Address 0 is the null pointer. -/
structure RamFile where
  data : Nat
  size : Nat

/-- The bytes of a file lie in a used block. -/
def RamFile.Valid (f : RamFile) (h : Heap) : Prop :=
  (f.data = 0 ∧ f.size = 0) ∨ Backed h f.data f.size

/-- What a write leaves, and the target and length of its `memcpy` if it comes to it. -/
structure WriteOutcome where
  ret : Int
  heap : Heap
  file : RamFile
  copied : Option (Nat × Nat)

/-- The `memcpy` of a write. Addresses wrap. -/
def storeBytes (mem : Nat → UInt8) (dst count : Nat) (buf : Nat → UInt8) (a : Nat) : UInt8 :=
  if (a + sizeMod - dst) % sizeMod < count then buf ((a + sizeMod - dst) % sizeMod) else mem a

/-- The address of a byte of a file. -/
def RamFile.at (f : RamFile) (offset : BitVec 64) : Nat := (f.data + offset.toNat) % sizeMod

/-- The last lines of `vfs_write`. -/
def storeAt (h : Heap) (f : RamFile) (offset count : BitVec 64) (buf : Nat → UInt8) :
    WriteOutcome where
  ret := intOf count.toNat
  heap := { h with mem := storeBytes h.mem (f.at offset) count.toNat buf }
  file := f
  copied := some (f.at offset, count.toNat)

/-- `vfs_write` on a node of type `VFS_FILE`. -/
def vfsWriteHeap (places : List (Option Nat)) (h : Heap) (f : RamFile) (offset count : BitVec 64)
    (buf : Nat → UInt8) : WriteOutcome :=
  let stop := offset + count
  if f.size < stop.toNat then
    match krealloc places h f.data stop.toNat with
    | (none, h) => ⟨-1, h, f, none⟩
    | (some grown, h) =>
      -- Fill the gap behind the old end.
      let h := if f.size < offset.toNat then heapZero h (grown + f.size) (offset.toNat - f.size)
        else h
      storeAt h ⟨grown, stop.toNat⟩ offset count buf
  else storeAt h f offset count buf

/-- The copy touches only bytes of the block of the file, and a return value that is not negative
means that the file ends where the write does or where it ended before. -/
structure WriteInBounds (f : RamFile) (offset count : BitVec 64) (r : WriteOutcome) : Prop where
  inside : ∀ dst n, r.copied = some (dst, n) → ∀ i < n, ∃ b ∈ r.heap.blocks, b.free = false ∧
    b.ptr = r.file.data ∧ ∃ k < b.size, (dst + i) % sizeMod = (b.ptr + k) % sizeMod
  size : 0 ≤ r.ret → r.file.size = max f.size (offset.toNat + count.toNat)

/-- `krealloc` has no block for a size. -/
def Refuses (places : List (Option Nat)) (h : Heap) (ptr n : Nat) : Prop :=
  (∀ b ∈ blockOf h ptr, b.size < n) ∧ ¬ Room places h n

/-- What a write that copies anything needs: the end does not wrap, and if the file grows, the
size asked for does not wrap in `kmalloc`; or the end wraps and the block for it is refused. -/
def WriteClear (places : List (Option Nat)) (h : Heap) (f : RamFile) (offset count : BitVec 64) :
    Prop :=
  count.toNat = 0 ∨
    (offset.toNat + count.toNat < sizeMod ∧ (f.size < (offset + count).toNat →
      ¬ Wraps places h (.krealloc f.data (offset + count)))) ∨
    (sizeMod ≤ offset.toNat + count.toNat ∧ f.size < (offset + count).toNat ∧
      Refuses places h f.data (offset + count).toNat)

section Bounds

variable {places : List (Option Nat)} {h h' : Heap} {f : RamFile} {offset count : BitVec 64}
  {buf : Nat → UInt8} {q n : Nat}

theorem backed_mono {m : Nat} (hb : Backed h q m) (hle : n ≤ m) : Backed h q n := by
  obtain ⟨b, hb, hused, hptr, hsize⟩ := hb
  exact ⟨b, hb, hused, hptr, Nat.le_trans hle hsize⟩

/-- A byte that the copy touches lies in a block of the file exactly if the block has so many
bytes. -/
theorem touches_iff_backed (hfit : ¬ Backed h q sizeMod) {off i : Nat} :
    (∃ b ∈ h.blocks, b.free = false ∧ b.ptr = q ∧
      ∃ k < b.size, ((q + off) % sizeMod + i) % sizeMod = (b.ptr + k) % sizeMod) ↔
      Backed h q ((off + i) % sizeMod + 1) := by
  refine exists_congr fun b => and_congr_right fun hb => and_congr_right fun hused =>
    and_congr_right fun hptr => ?_
  have hlt : b.size < sizeMod := Nat.lt_of_not_le fun hle => hfit ⟨b, hb, hused, hptr, hle⟩
  subst hptr
  unfold sizeMod at *
  constructor
  · rintro ⟨k, hk, heq⟩
    omega
  · intro hin
    exact ⟨(off + i) % 2 ^ 64, hin, by omega⟩

/-- A copy stays inside of a block exactly if it is empty, or does not wrap and fits. -/
theorem copy_inside_iff (hfit : ¬ Backed h q sizeMod) {off len : Nat} (hoff : off < sizeMod) :
    (∀ i < len, Backed h q ((off + i) % sizeMod + 1)) ↔
      len = 0 ∨ (off + len < sizeMod ∧ Backed h q (off + len)) := by
  constructor
  · intro hall
    by_cases hzero : len = 0
    · exact .inl hzero
    by_cases hwrap : off + len < sizeMod
    · refine .inr ⟨hwrap, ?_⟩
      have hlast := hall (len - 1) (by omega)
      rw [Nat.mod_eq_of_lt (by omega)] at hlast
      exact backed_mono hlast (by omega)
    · -- The byte before the wrap would need a block as large as memory.
      have htop := hall (sizeMod - 1 - off) (by omega)
      rw [Nat.mod_eq_of_lt (by omega)] at htop
      exact absurd (backed_mono htop (by omega)) hfit
  · rintro (rfl | ⟨hwrap, hbacked⟩) i hi
    · cases hi
    · rw [Nat.mod_eq_of_lt (by omega)]
      exact backed_mono hbacked (by omega)

@[simp] theorem storeAt_copied :
    (storeAt h f offset count buf).copied = some (f.at offset, count.toNat) := rfl

-- Stated for any memory: unfolding the copy would compare it with the old memory.
theorem blocks_withMem (mem : Nat → UInt8) : ({ h with mem := mem } : Heap).blocks = h.blocks :=
  rfl

@[simp] theorem storeAt_blocks : (storeAt h f offset count buf).heap.blocks = h.blocks :=
  blocks_withMem _

@[simp] theorem storeAt_file : (storeAt h f offset count buf).file = f := rfl

/-- Where the copy of a write goes. -/
theorem storeAt_inBounds_iff {old : RamFile} (hfit : ¬ Backed h f.data sizeMod)
    (hstop : offset.toNat + count.toNat < sizeMod →
      f.size = max old.size (offset.toNat + count.toNat)) :
    WriteInBounds old offset count (storeAt h f offset count buf) ↔
      count.toNat = 0 ∨ (offset.toNat + count.toNat < sizeMod ∧
        Backed h f.data (offset.toNat + count.toNat)) := by
  have hinside : (∀ dst n, (storeAt h f offset count buf).copied = some (dst, n) → ∀ i < n,
      ∃ b ∈ (storeAt h f offset count buf).heap.blocks, b.free = false ∧
        b.ptr = (storeAt h f offset count buf).file.data ∧
        ∃ k < b.size, (dst + i) % sizeMod = (b.ptr + k) % sizeMod) ↔
      ∀ i < count.toNat, Backed h f.data ((offset.toNat + i) % sizeMod + 1) := by
    simp only [storeAt_copied, storeAt_blocks, storeAt_file, Option.some.injEq, Prod.mk.injEq]
    constructor
    · intro hall i hi
      have htouched := hall _ _ ⟨rfl, rfl⟩ i hi
      rw [RamFile.at, touches_iff_backed hfit] at htouched
      exact htouched
    · intro hall dst n hcopied i hi
      rw [← hcopied.1, RamFile.at, touches_iff_backed hfit]
      exact hall i (hcopied.2 ▸ hi)
  have hoff : offset.toNat < sizeMod := offset.isLt
  rw [← copy_inside_iff hfit hoff, ← hinside]
  constructor
  · exact fun hb => hb.inside
  · intro hb
    refine ⟨hb, fun _ => hstop ?_⟩
    rcases (copy_inside_iff hfit hoff).mp (hinside.mp hb) with hzero | ⟨hwrap, _⟩
    · rw [hzero, Nat.add_zero]
      exact hoff
    · exact hwrap

/-- `krealloc` returns a block exactly if the old one is large enough or there is room. -/
theorem krealloc_isSome_iff (hc : Chained places h) (hf : f.Valid h) (hn : f.size < n) :
    (krealloc places h f.data n).1.isSome ↔ ¬ Refuses places h f.data n := by
  have hzero : n ≠ 0 := Nat.ne_of_gt (Nat.zero_lt_of_lt hn)
  rw [Refuses]
  by_cases hdata : f.data = 0
  · have hnone : blockOf h f.data = none := by
      rw [hdata, blockOf, List.find?_eq_none]
      intro b _
      simp [HeapBlock.ptr, headerSize]
    rw [krealloc, if_pos hdata, kmalloc_isSome_iff, hnone]
    simp [hzero]
  · obtain ⟨b, hb, hused, hptr, hsize⟩ := hf.resolve_left fun hnull => hdata hnull.1
    rw [← hptr] at hdata ⊢
    have hblock := hc.blockOf hb
    by_cases hlt : b.size < n
    · rw [krealloc_move hdata hblock hlt, kmalloc_isSome_iff, hblock]
      simp [hzero, hlt]
    · rw [krealloc, if_neg hdata, if_neg hzero, hblock]
      simp only [if_pos (Nat.le_of_not_lt hlt)]
      simp [hlt]

/-- A block that `kmalloc` hands out does not fill the address space. -/
theorem granted_not_backed {used : HeapBlock} (hg : Granted h n q h' used) :
    ¬ Backed h' q sizeMod := by
  rintro ⟨b, hb, -, hptr, hle⟩
  obtain rfl := hg.unique b hb hptr
  exact Nat.not_le.mpr hg.lt hle

/-- Neither does one that `krealloc` returns. -/
theorem krealloc_not_backed_sizeMod (hc : Chained places h)
    (hsizes : ∀ b ∈ h.blocks, b.size < sizeMod) (hf : f.Valid h) (hn : f.size < n)
    (hk : krealloc places h f.data n = (some q, h')) : ¬ Backed h' q sizeMod := by
  have hzero : n ≠ 0 := Nat.ne_of_gt (Nat.zero_lt_of_lt hn)
  by_cases hdata : f.data = 0
  · rw [krealloc, if_pos hdata] at hk
    obtain ⟨used, hg⟩ := kmalloc_granted hc hk
    exact granted_not_backed hg
  · obtain ⟨b, hb, hused, hptr, -⟩ := hf.resolve_left fun hnull => hdata hnull.1
    rw [← hptr] at hdata hk
    have hblock := hc.blockOf hb
    by_cases hlt : b.size < n
    · rw [krealloc_move hdata hblock hlt] at hk
      obtain ⟨hsome, rfl⟩ := Prod.mk.inj hk
      obtain ⟨used, hg⟩ := kmalloc_granted hc (Prod.ext hsome rfl)
      simp only [hsome]
      intro hbacked
      have hne : q ≠ b.ptr := (hg.kept b hb hused).2.symm
      exact granted_not_backed hg ((backed_kfree (h := heapCopy _ q b.ptr b.size) hne).mp hbacked)
    · rw [krealloc, if_neg hdata, if_neg hzero, hblock] at hk
      simp only [if_pos (Nat.le_of_not_lt hlt)] at hk
      obtain ⟨-, rfl⟩ := Prod.mk.inj hk
      rintro ⟨b', hb', -, -, hle⟩
      exact Nat.not_le.mpr (hsizes b' hb') hle

/-- The filled gap changes no block. -/
theorem backed_gap {c : Prop} [Decidable c] {at' len m : Nat} :
    Backed (if c then heapZero h at' len else h) q m ↔ Backed h q m := by
  split <;> rfl

theorem RamFile.Valid.krealloc (hf : f.Valid h) (n : BitVec 64) :
    (Alloc.krealloc f.data n).Valid h := by
  rcases hf with hnull | ⟨b, hb, hused, hptr, -⟩
  · exact .inl hnull.1
  · exact .inr ⟨b, hb, hused, hptr⟩

theorem not_wraps_of_refuses {n : BitVec 64} (hr : Refuses places h q n.toNat) :
    ¬ Wraps places h (.krealloc q n) := fun hw => hr.2 hw.2.2

theorem toNat_stop (hwrap : offset.toNat + count.toNat < sizeMod) :
    (offset + count).toNat = offset.toNat + count.toNat := by
  rw [BitVec.toNat_add]
  exact Nat.mod_eq_of_lt hwrap

/-- A write that does not grow the file. -/
theorem vfsWriteHeap_kept_iff (hsizes : ∀ b ∈ h.blocks, b.size < sizeMod) (hf : f.Valid h)
    (hkept : ¬ f.size < (offset + count).toNat) :
    WriteInBounds f offset count (vfsWriteHeap places h f offset count buf) ↔
      WriteClear places h f offset count := by
  have hfit : ¬ Backed h f.data sizeMod := fun ⟨b, hb, _, _, hle⟩ =>
    Nat.not_le.mpr (hsizes b hb) hle
  rw [vfsWriteHeap]
  simp only [if_neg hkept]
  rw [storeAt_inBounds_iff hfit, WriteClear]
  · refine or_congr_right' fun hcount => ?_
    constructor
    · exact fun hin => .inl ⟨hin.1, fun hgrow => absurd hgrow hkept⟩
    · rintro (⟨hwrap, -⟩ | ⟨-, hgrow, -⟩)
      · refine ⟨hwrap, ?_⟩
        have hle : offset.toNat + count.toNat ≤ f.size := by
          rw [← toNat_stop hwrap]
          exact Nat.le_of_not_lt hkept
        rcases hf with ⟨-, hsize⟩ | hbacked
        · exact absurd (hsize ▸ hle) (by omega)
        · exact backed_mono hbacked hle
      · exact absurd hgrow hkept
  · intro hwrap
    rw [toNat_stop hwrap] at hkept
    exact (Nat.max_eq_left (Nat.le_of_not_lt hkept)).symm

/-- A write that is refused copies nothing. -/
theorem writeInBounds_refused : WriteInBounds f offset count ⟨-1, h, f, none⟩ where
  inside := by
    intro dst n hcopied
    cases hcopied
  size := by
    intro hret
    have hneg : ¬ (0 : Int) ≤ -1 := by decide
    exact absurd hret hneg

/-- A write that grows the file. -/
theorem vfsWriteHeap_grown_iff (hc : Chained places h) (hsizes : ∀ b ∈ h.blocks, b.size < sizeMod)
    (hf : f.Valid h) (hgrow : f.size < (offset + count).toNat) :
    WriteInBounds f offset count (vfsWriteHeap places h f offset count buf) ↔
      WriteClear places h f offset count := by
  have hsome := krealloc_isSome_iff hc hf hgrow
  have hhonours := krealloc_honours_iff hc f.data (offset + count) (hf.krealloc _)
  rw [honours_iff_backed rfl, Alloc.call, Alloc.bytes] at hhonours
  rw [vfsWriteHeap, WriteClear]
  simp only [if_pos hgrow]
  cases hk : Mm.krealloc places h f.data (offset + count).toNat with
  | mk r h' =>
    rw [hk] at hsome hhonours
    cases r with
    | none =>
      have hrefused : Refuses places h f.data (offset + count).toNat := by
        by_contra hnot
        cases hsome.mpr hnot
      refine iff_of_true writeInBounds_refused (.inr ?_)
      rcases Nat.lt_or_ge (offset.toNat + count.toNat) sizeMod with hwrap | hwrap
      · exact .inl ⟨hwrap, fun _ => not_wraps_of_refuses hrefused⟩
      · exact .inr ⟨hwrap, hgrow, hrefused⟩
    | some grown =>
      have hserved : ¬ Refuses places h f.data (offset + count).toNat := hsome.mp rfl
      have hfit := krealloc_not_backed_sizeMod hc hsizes hf hgrow hk
      simp only [Option.some.injEq, forall_eq'] at hhonours
      simp only
      rw [storeAt_inBounds_iff (backed_gap.not.mpr hfit), backed_gap]
      · refine or_congr_right ?_
        constructor
        · rintro ⟨hwrap, hbacked⟩
          rw [← toNat_stop hwrap] at hbacked
          exact .inl ⟨hwrap, fun _ => hhonours.mp hbacked⟩
        · rintro (⟨hwrap, hclear⟩ | ⟨-, -, hrefused⟩)
          · refine ⟨hwrap, ?_⟩
            rw [← toNat_stop hwrap]
            exact hhonours.mpr (hclear hgrow)
          · exact absurd hrefused hserved
      · intro hwrap
        rw [toNat_stop hwrap] at hgrow ⊢
        exact (Nat.max_eq_right (Nat.le_of_lt hgrow)).symm

/-- A write copies into the block of its file only, and reports the true size of the file, exactly
if neither the end of the write nor the size of the block it needs wraps into something that is
granted. Sizes of blocks are 64-bit numbers. -/
theorem vfs_write_in_bounds_iff (places : List (Option Nat)) (h : Heap) (f : RamFile)
    (offset count : BitVec 64) (buf : Nat → UInt8) (hc : Chained places h)
    (hsizes : ∀ b ∈ h.blocks, b.size < sizeMod) (hf : f.Valid h) :
    WriteInBounds f offset count (vfsWriteHeap places h f offset count buf) ↔
      WriteClear places h f offset count := by
  by_cases hgrow : f.size < (offset + count).toNat
  · exact vfsWriteHeap_grown_iff hc hsizes hf hgrow
  · exact vfsWriteHeap_kept_iff hsizes hf hgrow

/-- The first five bytes of a new file. -/
theorem vfs_write_in_bounds_five : WriteInBounds ⟨0, 0⟩ 0 5
    (vfsWriteHeap [] (heapInit (some 0x100000)) ⟨0, 0⟩ 0 5 fun _ => 97) :=
  (vfs_write_in_bounds_iff [] (heapInit (some 0x100000)) ⟨0, 0⟩ 0 5 (fun _ => 97) (by decide)
    (by decide) (.inl ⟨rfl, rfl⟩)).mpr (.inr (.inl ⟨by decide, fun _ => by decide⟩))

/-- A heap with one used block of 16 bytes, the data of a file of 16 bytes. -/
def oneBlockHeap : Heap := ⟨[⟨0x100000, 16, false⟩], [], fun _ => 0⟩

/-- A write of 16 bytes at offset 2^64 - 8 ends at 8, so the file is not grown, and the first
byte of the copy lies before the block. -/
theorem vfs_write_before_block : RamFile.Valid ⟨0x10001d, 16⟩ oneBlockHeap ∧
    ¬ WriteInBounds ⟨0x10001d, 16⟩ (-8) 16
      (vfsWriteHeap [] oneBlockHeap ⟨0x10001d, 16⟩ (-8) 16 fun _ => 97) := by
  refine ⟨.inr ⟨⟨0x100000, 16, false⟩, List.mem_singleton.mpr rfl, rfl, rfl, Nat.le_refl _⟩, ?_⟩
  intro hin
  obtain ⟨b, hb, -, -, k, hk, heq⟩ := hin.inside 0x100015 16 (by decide +kernel) 0 (by decide)
  have hb' : b = ⟨0x100000, 16, false⟩ := List.mem_singleton.mp hb
  subst hb'
  simp only [HeapBlock.ptr, headerSize, sizeMod] at hk heq
  omega

end Bounds

end Mmix.Fs
