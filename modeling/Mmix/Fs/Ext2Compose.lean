import Mmix.Fs.Ext2Bounds
import Mmix.Fs.Pipe

/-!
# Reads of a file in parts

A read of `read_inode_data` is compared with two reads of its parts and with the reads of its
single bytes. The heap may have changed between two calls, so that what a call reads behind
the end of a buffer is arbitrary for each of them. Such a read happens for the blocks of a file
that its double indirect pointers do not reach.
-/

namespace Mmix.Fs

open List

/-- The same disk with other bytes behind the buffers on the heap. -/
def Device.withStray (d : Device) (stray : Nat → UInt8) : Device := { d with stray := stray }

/-- The byte at a position that the pointers do not reach, when the word read behind the double
indirect block is `next`. -/
def Device.farByte (d : Device) (blockSize next pos : Nat) : UInt8 :=
  let p := blockSize / 4
  let block := if next = 0 then 0 else d.word blockSize next ((pos / blockSize - 12 - p) % p)
  if block = 0 then 0 else d.block blockSize block (pos % blockSize)

/-- The bytes that a read is left with up to the end of a file. -/
def Ext2Inode.left (inode : Ext2Inode) (offset count : Nat) : Nat :=
  min count (inode.size - offset)

/-- A read of `a + b` bytes is a read of `a` bytes followed by one of `b`, and the sequence of
its single bytes, whatever the heap holds at each call. -/
structure ReadsCompose (fs : Ext2) (d : Device) (inode : Ext2Inode) (off a b : Nat) : Prop where
  bytes : ∀ whole first second,
    (readInodeData fs (d.withStray whole) inode off (a + b)).val =
      (readInodeData fs (d.withStray first) inode off a).val ++
        (readInodeData fs (d.withStray second) inode (off + a) b).val
  returns : ∀ whole first second,
    intOf (readInodeData fs (d.withStray whole) inode off (a + b)).val.length =
      intOf (readInodeData fs (d.withStray first) inode off a).val.length +
        intOf (readInodeData fs (d.withStray second) inode (off + a) b).val.length
  singles : ∀ (whole : Nat → UInt8) (single : Nat → Nat → UInt8),
    (readInodeData fs (d.withStray whole) inode off (a + b)).val =
      (List.range (a + b)).flatMap fun j =>
        (readInodeData fs (d.withStray (single j)) inode (off + j) 1).val

/-- What composing takes: where the pointers do not reach, no word of the heap leads to a byte
other than zero; and the number of bytes is not made negative by the cast to `int` in the whole
read only. -/
structure ComposeClear (fs : Ext2) (d : Device) (inode : Ext2Inode) (off a b : Nat) : Prop where
  far : ∀ pos, off ≤ pos → pos < off + inode.left off (a + b) → fs.reach ≤ pos / fs.blockSize →
    ∀ next < 2 ^ 32, d.farByte fs.blockSize next pos = 0
  returns : inode.left off (a + b) < 2 ^ 31 ∨ 2 ^ 31 ≤ inode.left off a ∨
    2 ^ 31 ≤ inode.left (off + a) b

section Bytes

variable {fs : Ext2} {d : Device} {inode : Ext2Inode} {pos off a b : Nat}

theorem Device.Serves.withStray (hd : d.Serves) (stray : Nat → UInt8) :
    (d.withStray stray).Serves :=
  ⟨hd.disk, hd.heap⟩

theorem fileByte_near (hd : d.Serves) (hfs : fs.Sized) (hpos : pos < wrap32)
    (hnear : pos / fs.blockSize < fs.reach) (stray : Nat → UInt8) :
    fs.fileByte (d.withStray stray) inode pos = fs.fileByte d inode pos := by
  have hblock : pos / fs.blockSize % wrap32 = pos / fs.blockSize :=
    Nat.mod_eq_of_lt (Nat.lt_of_le_of_lt (Nat.div_le_self _ _) hpos)
  rw [Ext2.fileByte, Ext2.fileByte, hblock, getInodeBlock_val (hd.withStray stray) hfs inode hnear,
    getInodeBlock_val hd hfs inode hnear]
  rfl

/-- A word behind the end of the block comes from the heap. -/
theorem readPointer_stray (hd : d.Serves) (hfs : fs.Sized) (block : Nat) {index : Nat}
    (hi : fs.blockSize / 4 ≤ index) :
    (readPointer fs d block index).val = le32 d.stray (4 * index) := by
  have hp := hfs.pointers
  rw [readPointer, if_pos (kmalloc_of_serves hd hfs), readBlock_of_serves hd]
  apply le32_congr
  intro i _
  rw [hfs.sectors, if_neg (by omega)]

/-- Behind the reach of the pointers, `get_inode_block` follows a word of the heap. -/
theorem getInodeBlock_far (hd : d.Serves) (hfs : fs.Sized) {logical : Nat}
    (hfar : fs.reach ≤ logical) :
    (getInodeBlock fs d inode logical).val =
      let p := fs.blockSize / 4
      let next := le32 d.stray (4 * ((logical - 12 - p) / p))
      if next = 0 then 0 else d.word fs.blockSize next ((logical - 12 - p) % p) := by
  have hp := hfs.pointers
  have hbs := hfs.pos
  have hp0 : 0 < fs.blockSize / 4 := by omega
  rw [Ext2.reach] at hfar
  have hdirect : ¬ logical < 12 := by omega
  have hsingle : ¬ logical - 12 < fs.blockSize / 4 := by omega
  have hhigh : fs.blockSize / 4 ≤ (logical - 12 - fs.blockSize / 4) / (fs.blockSize / 4) :=
    (Nat.le_div_iff_mul_le hp0).mpr (by omega)
  rw [getInodeBlock, if_neg hdirect, if_neg hsingle]
  simp only [Checked.val_bind, readPointer_stray hd hfs _ hhigh, Checked.val_ite,
    readPointer_val hd hfs _ (Nat.mod_lt _ hp0), Checked.val_pure]

theorem fileByte_far (hd : d.Serves) (hfs : fs.Sized) (hpos : pos < wrap32)
    (hfar : fs.reach ≤ pos / fs.blockSize) (stray : Nat → UInt8) :
    fs.fileByte (d.withStray stray) inode pos = d.farByte fs.blockSize
      (le32 stray (4 * ((pos / fs.blockSize - 12 - fs.blockSize / 4) / (fs.blockSize / 4))))
      pos := by
  have hblock : pos / fs.blockSize % wrap32 = pos / fs.blockSize :=
    Nat.mod_eq_of_lt (Nat.lt_of_le_of_lt (Nat.div_le_self _ _) hpos)
  rw [Ext2.fileByte, hblock, getInodeBlock_far (hd.withStray stray) hfs hfar]
  rfl

/-- Bytes behind a buffer that hold a given word everywhere. -/
def strayWord (next : Nat) : Nat → UInt8 := fun i => UInt8.ofNat (next / 256 ^ (i % 4))

theorem le32_strayWord {next : Nat} (h : next < 2 ^ 32) (index : Nat) :
    le32 (strayWord next) (4 * index) = next := by
  have h0 : (4 * index) % 4 = 0 := by omega
  have h1 : (4 * index + 1) % 4 = 1 := by omega
  have h2 : (4 * index + 2) % 4 = 2 := by omega
  have h3 : (4 * index + 2 + 1) % 4 = 3 := by omega
  simp only [le32, le16, strayWord, h0, h1, h2, h3, UInt8.toNat_ofNat']
  omega

/-- A byte of a file is the same whatever the heap holds. -/
def Settled (fs : Ext2) (d : Device) (inode : Ext2Inode) (pos : Nat) : Prop :=
  ∀ stray stray', fs.fileByte (d.withStray stray) inode pos =
    fs.fileByte (d.withStray stray') inode pos

theorem settled_iff (hd : d.Serves) (hfs : fs.Sized) (hpos : pos < wrap32) :
    Settled fs d inode pos ↔ (fs.reach ≤ pos / fs.blockSize →
      ∀ next < 2 ^ 32, d.farByte fs.blockSize next pos = 0) := by
  by_cases hfar : fs.reach ≤ pos / fs.blockSize
  · constructor
    · intro h _ next hnext
      have hbyte := h (strayWord next) (strayWord 0)
      rw [fileByte_far hd hfs hpos hfar, fileByte_far hd hfs hpos hfar, le32_strayWord hnext,
        le32_strayWord (by decide)] at hbyte
      exact hbyte
    · intro h stray stray'
      rw [fileByte_far hd hfs hpos hfar, fileByte_far hd hfs hpos hfar, h hfar _ (le32_lt _ _),
        h hfar _ (le32_lt _ _)]
  · refine iff_of_true (fun stray stray' => ?_) (fun h => absurd h hfar)
    have hnear := Nat.lt_of_not_le hfar
    rw [fileByte_near hd hfs hpos hnear, fileByte_near hd hfs hpos hnear]

/-- The bytes of any read. -/
theorem readInodeData_left (hd : d.Serves) (hfs : fs.Sized) (hsize : inode.size < wrap32)
    {offset : Nat} (ho : offset < wrap32) (count : Nat) :
    (readInodeData fs d inode offset count).val =
      (range (inode.left offset count)).map fun j => fs.fileByte d inode (offset + j) := by
  by_cases hin : offset < inode.size
  · exact readInodeData_val hd hfs hsize hin count
  · have hout : inode.size ≤ offset := Nat.le_of_not_lt hin
    have hnone : inode.left offset count = 0 := by
      rw [Ext2Inode.left, Nat.sub_eq_zero_of_le hout, Nat.min_zero]
    rw [readInodeData, Nat.mod_eq_of_lt ho, if_pos hout, hnone]
    rfl

theorem left_add (inode : Ext2Inode) (off a b : Nat) :
    inode.left off (a + b) = inode.left off a + inode.left (off + a) b := by
  unfold Ext2Inode.left
  omega

/-- A list of values in two parts. -/
theorem map_range_eq_append_iff {α : Type*} {f g h : Nat → α} {m n : Nat} :
    (range (m + n)).map f = (range m).map g ++ (range n).map h ↔
      (∀ j < m, f j = g j) ∧ ∀ j < n, f (m + j) = h j := by
  rw [range_add, map_append, map_map]
  constructor
  · intro heq
    obtain ⟨hfirst, hsecond⟩ := append_inj heq (by simp)
    rw [map_inj_left] at hfirst hsecond
    exact ⟨fun j hj => hfirst j (mem_range.mpr hj),
      fun j hj => hsecond j (mem_range.mpr hj)⟩
  · rintro ⟨hfirst, hsecond⟩
    congr 1
    · exact map_congr_left fun j hj => hfirst j (mem_range.mp hj)
    · exact map_congr_left fun j hj => hsecond j (mem_range.mp hj)

/-- The parts of a read fit together exactly if the heap is not seen. -/
theorem bytes_compose_iff (hd : d.Serves) (hfs : fs.Sized) (hsize : inode.size < wrap32)
    (hoff : off + a + b < wrap32) :
    (∀ whole first second,
      (readInodeData fs (d.withStray whole) inode off (a + b)).val =
        (readInodeData fs (d.withStray first) inode off a).val ++
          (readInodeData fs (d.withStray second) inode (off + a) b).val) ↔
      ∀ pos, off ≤ pos → pos < off + inode.left off (a + b) → Settled fs d inode pos := by
  have hread : ∀ stray offset count, offset ≤ off + a →
      (readInodeData fs (d.withStray stray) inode offset count).val =
        (range (inode.left offset count)).map fun j =>
          fs.fileByte (d.withStray stray) inode (offset + j) :=
    fun stray offset count ho => readInodeData_left (hd.withStray stray) hfs hsize (by omega) count
  have hpart : inode.left (off + a) b ≠ 0 → inode.left off a = a := by
    unfold Ext2Inode.left
    omega
  constructor
  · intro h pos hlow hhigh stray stray'
    have hparts := h stray stray' stray'
    rw [hread _ off _ (by omega), hread _ off _ (by omega), hread _ (off + a) _ (Nat.le_refl _),
      left_add, map_range_eq_append_iff] at hparts
    rw [left_add] at hhigh
    by_cases hfirst : pos < off + inode.left off a
    · have hbyte := hparts.1 (pos - off) (by omega)
      rwa [Nat.add_sub_cancel' hlow] at hbyte
    · have hbyte := hparts.2 (pos - off - inode.left off a) (by omega)
      have hall := hpart (by omega)
      rw [hall] at hbyte hfirst hhigh
      have hpos : off + (a + (pos - off - a)) = pos := by omega
      have hpos' : off + a + (pos - off - a) = pos := by omega
      rwa [hpos, hpos'] at hbyte
  · intro h whole first second
    rw [hread _ off _ (by omega), hread _ off _ (by omega), hread _ (off + a) _ (Nat.le_refl _),
      left_add, map_range_eq_append_iff]
    rw [left_add] at h
    constructor
    · intro j hj
      exact h (off + j) (by omega) (by omega) whole first
    · intro j hj
      have hall := hpart (by omega)
      rw [hall] at h ⊢
      rw [← Nat.add_assoc]
      exact h (off + a + j) (by omega) (by omega) whole second

/-- Bytes that do not depend on the heap are those of the single reads. -/
theorem singles_of_settled (hd : d.Serves) (hfs : fs.Sized) (hsize : inode.size < wrap32)
    {count : Nat} (hoff : off + count < wrap32)
    (h : ∀ pos, off ≤ pos → pos < off + inode.left off count → Settled fs d inode pos)
    (whole : Nat → UInt8) (single : Nat → Nat → UInt8) :
    (readInodeData fs (d.withStray whole) inode off count).val =
      (range count).flatMap fun j =>
        (readInodeData fs (d.withStray (single j)) inode (off + j) 1).val := by
  induction count with
  | zero =>
    rw [readInodeData_left (hd.withStray whole) hfs hsize (by omega), Ext2Inode.left,
      Nat.zero_min]
    rfl
  | succ count ih =>
    have hlast := (bytes_compose_iff hd hfs hsize hoff).mpr h whole whole (single count)
    have hfront : ∀ pos, off ≤ pos → pos < off + inode.left off count →
        Settled fs d inode pos := by
      intro pos hlow hhigh
      apply h pos hlow
      rw [left_add]
      omega
    rw [hlast, ih (by omega) hfront, range_succ, flatMap_append, flatMap_singleton]

/-- The cast to `int` respects the sum of two lengths unless it makes only the sum negative. -/
theorem intOf_add_iff {x y : Nat} (h : x + y < 2 ^ 32) :
    intOf (x + y) = intOf x + intOf y ↔ x + y < 2 ^ 31 ∨ 2 ^ 31 ≤ x ∨ 2 ^ 31 ≤ y := by
  have hcast : ∀ n < 2 ^ 32, intOf n = if n < 2 ^ 31 then (n : Int) else n - 2 ^ 32 := by
    intro n hn
    rw [intOf, BitVec.toInt_eq_toNat_cond, BitVec.toNat_ofNat, Nat.mod_eq_of_lt hn]
    split <;> split <;> omega
  rw [hcast _ h, hcast x (by omega), hcast y (by omega)]
  split <;> split <;> split <;> omega

theorem returns_compose_iff (hd : d.Serves) (hfs : fs.Sized) (hsize : inode.size < wrap32)
    (hoff : off + a + b < wrap32) :
    (∀ whole first second,
      intOf (readInodeData fs (d.withStray whole) inode off (a + b)).val.length =
        intOf (readInodeData fs (d.withStray first) inode off a).val.length +
          intOf (readInodeData fs (d.withStray second) inode (off + a) b).val.length) ↔
      inode.left off (a + b) < 2 ^ 31 ∨ 2 ^ 31 ≤ inode.left off a ∨
        2 ^ 31 ≤ inode.left (off + a) b := by
  have hlength : ∀ stray offset count, offset ≤ off + a →
      (readInodeData fs (d.withStray stray) inode offset count).val.length =
        inode.left offset count := by
    intro stray offset count ho
    rw [readInodeData_left (hd.withStray stray) hfs hsize (by omega), length_map,
      length_range]
  have hsum : inode.left off a + inode.left (off + a) b < 2 ^ 32 := by
    rw [← left_add]
    exact Nat.lt_of_le_of_lt (Nat.min_le_left _ _)
      (Nat.lt_of_le_of_lt (by omega) (show off + a + b < 2 ^ 32 from hoff))
  rw [left_add, ← intOf_add_iff hsum, ← left_add]
  constructor
  · intro h
    have hreturn := h d.stray d.stray d.stray
    rwa [hlength _ off _ (by omega), hlength _ off _ (by omega),
      hlength _ (off + a) _ (Nat.le_refl _)] at hreturn
  · intro h whole first second
    rw [hlength _ off _ (by omega), hlength _ off _ (by omega),
      hlength _ (off + a) _ (Nat.le_refl _)]
    exact h

end Bytes

/-- On a mounted file system the reads of a file compose exactly if they stay clear of what its
pointers do not reach and of the sign of the return value. -/
theorem ext2_reads_compose_iff (fs : Ext2) (d : Device) (hd : d.Serves)
    (hmount : (ext2Mount d).val = some fs) (buf : Buffer) (pos off a b : Nat)
    (hoff : off + a + b < 2 ^ 32) :
    ReadsCompose fs d (readInodeFields buf pos) off a b ↔
      ComposeClear fs d (readInodeFields buf pos) off a b := by
  have hfs := ext2Mount_sized hmount
  have hsize : (readInodeFields buf pos).size < wrap32 := le32_lt buf (pos + 4)
  have hsettled : ∀ p, off ≤ p → p < off + (readInodeFields buf pos).left off (a + b) →
      (Settled fs d (readInodeFields buf pos) p ↔ (fs.reach ≤ p / fs.blockSize →
        ∀ next < 2 ^ 32, d.farByte fs.blockSize next p = 0)) := by
    intro p _ hhigh
    have hleft : (readInodeFields buf pos).left off (a + b) ≤ a + b := Nat.min_le_left _ _
    exact settled_iff hd hfs (show p < 2 ^ 32 by omega)
  constructor
  · intro h
    refine ⟨fun p hlow hhigh => ?_, (returns_compose_iff hd hfs hsize hoff).mp h.returns⟩
    exact (hsettled p hlow hhigh).mp
      ((bytes_compose_iff hd hfs hsize hoff).mp h.bytes p hlow hhigh)
  · intro h
    have hbytes : ∀ p, off ≤ p → p < off + (readInodeFields buf pos).left off (a + b) →
        Settled fs d (readInodeFields buf pos) p :=
      fun p hlow hhigh => (hsettled p hlow hhigh).mpr (h.far p hlow hhigh)
    constructor
    · exact (bytes_compose_iff hd hfs hsize hoff).mpr hbytes
    · exact (returns_compose_iff hd hfs hsize hoff).mpr h.returns
    · exact singles_of_settled hd hfs hsize (show off + (a + b) < 2 ^ 32 by omega) hbytes

/-- Two reads across the blocks of a file without blocks. -/
theorem ext2_reads_compose_holes :
    ReadsCompose bootFs bootDisk (readInodeFields emptyInode 0) 1000 100 3000 := by
  have hblock : bootFs.blockSize = 1024 := by decide +kernel
  refine (ext2_reads_compose_iff bootFs bootDisk bootDisk_serves bootFs_mounted emptyInode 0 1000
    100 3000 (by decide)).mpr ⟨fun p _ hhigh hfar => ?_, .inl ?_⟩
  · have hleft : (readInodeFields emptyInode 0).left 1000 (100 + 3000) ≤ 3100 := Nat.min_le_left _ _
    rw [Ext2.reach, hblock] at hfar
    omega
  · exact Nat.lt_of_le_of_lt (Nat.min_le_left _ _) (by decide)

/-- An inode of a file of 2 GiB. -/
def hugeInode : Buffer := fun i => if i = 7 then 128 else 0

/-- The read of 2 GiB returns a negative number, the reads of its parts do not. -/
theorem ext2_read_returns_negative :
    bootDisk.Serves ∧ (ext2Mount bootDisk).val = some bootFs ∧
      ¬ ReadsCompose bootFs bootDisk (readInodeFields hugeInode 0) 0 (2 ^ 31 - 1) 1 := by
  refine ⟨bootDisk_serves, bootFs_mounted, fun h => ?_⟩
  have hsize : (readInodeFields hugeInode 0).size = 2 ^ 31 := by decide
  have hreturns := (returns_compose_iff bootDisk_serves (ext2Mount_sized bootFs_mounted)
    (hsize.trans_lt (by decide)) (by decide)).mp h.returns
  simp only [Ext2Inode.left, hsize] at hreturns
  omega

end Mmix.Fs
