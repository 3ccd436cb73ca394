import Mmix.Fs.Ext2

/-!
# Files with holes

A file is a sequence of blocks of the disk. Which block holds a part of it is
recorded in its inode, directly or through one or two blocks of pointers, and a
pointer of zero on the way stands for a hole, which reads as zeros.
`get_inode_block` tests the pointers of the second level and of the data, but
not the two pointers of the inode that lead to blocks of pointers.
-/

namespace Mmix.Fs

open List

variable {fs : Ext2} {d : Device} {inode : Ext2Inode}

/-! ### Reading when everything is served -/

/-- Every request to the disk and to the heap succeeds. -/
structure Device.Serves (d : Device) : Prop where
  disk : ∀ lba count, d.readable lba count
  heap : ∀ size, d.heap size

/-- The bytes of a block on the disk. -/
def Device.block (d : Device) (blockSize block : Nat) : Buffer :=
  fun i => d.sector (block * (blockSize / 512) + i / 512) (i % 512)

/-- A pointer in a block on the disk. -/
def Device.word (d : Device) (blockSize block index : Nat) : Nat :=
  le32 (d.block blockSize block) (4 * index)

/-- What `ext2_mount` establishes about the size of a block. -/
structure Ext2.Sized (fs : Ext2) : Prop where
  pos : 0 < fs.blockSize
  dvd : 1024 ∣ fs.blockSize

theorem Superblock.dvd_blockSize (sb : Superblock) : 1024 ∣ sb.blockSize := by
  rw [Superblock.blockSize]
  exact (Nat.dvd_mod_iff (by decide)).mpr (Nat.dvd_mul_right _ _)

/-- The mounted file system of a superblock and its group table. -/
def Superblock.mounted (sb : Superblock) (table : Buffer) : Ext2 where
  blockSize := sb.blockSize
  inodesPerGroup := sb.inodesPerGroup
  inodeSize := sb.inodeBytes
  bgdCount := sb.bgdCount
  bgd := table

theorem ext2Mount_val (d : Device) :
    (ext2Mount d).val =
      (ext2ReadSuperblock d).val.bind fun sb => (ext2ReadBgd d sb).val.map sb.mounted := by
  rw [ext2Mount, Checked.val_bind]
  cases (ext2ReadSuperblock d).val with
  | none => rfl
  | some sb =>
    dsimp only [Option.bind_some]
    rw [Checked.val_bind]
    cases (ext2ReadBgd d sb).val with
    | none => rfl
    | some table => rfl

theorem ext2ReadBgd_eq_some {sb : Superblock} {table : Buffer}
    (h : (ext2ReadBgd d sb).val = some table) : d.kmalloc sb.bgdAlloc := by
  rw [ext2ReadBgd, Checked.val_bind, Checked.val_ite] at h
  by_contra hno
  rw [if_neg hno] at h
  cases h

/-- The file system that `ext2_mount` leaves behind. -/
theorem ext2Mount_eq_some (h : (ext2Mount d).val = some fs) :
    ∃ sb table, (ext2ReadSuperblock d).val = some sb ∧ (ext2ReadBgd d sb).val = some table ∧
      fs = sb.mounted table := by
  rw [ext2Mount_val] at h
  obtain ⟨sb, hsb, hrest⟩ := Option.bind_eq_some_iff.mp h
  obtain ⟨table, htable, rfl⟩ := Option.map_eq_some_iff.mp hrest
  exact ⟨sb, table, hsb, htable, rfl⟩

theorem ext2Mount_sized (h : (ext2Mount d).val = some fs) : fs.Sized := by
  obtain ⟨sb, table, -, htable, rfl⟩ := ext2Mount_eq_some h
  refine ⟨Nat.pos_of_ne_zero fun h0 => ?_, sb.dvd_blockSize⟩
  -- The group table of a file system without blocks asks the heap for nothing.
  have hheap := ext2ReadBgd_eq_some htable
  have hsize : sb.blockSize = 0 := h0
  rw [Superblock.bgdAlloc, hsize, Device.kmalloc] at hheap
  simp at hheap

/-! ### The blocks of a file -/

theorem readBlock_of_serves (hd : d.Serves) (bs block : Nat) :
    readBlock d bs block = some fun i =>
      if i < bs / 512 * 512 then d.block bs block i else d.stray i := by
  rw [readBlock, Device.readSectors, if_pos (hd.disk _ _)]
  rfl

theorem kmalloc_of_serves (hd : d.Serves) (hfs : fs.Sized) : d.kmalloc fs.blockSize := by
  simp [Device.kmalloc, hd.heap, Nat.pos_iff_ne_zero.mp hfs.pos]

theorem Ext2.Sized.sectors (hfs : fs.Sized) : fs.blockSize / 512 * 512 = fs.blockSize :=
  Nat.div_mul_cancel (Nat.dvd_trans (by decide) hfs.dvd)

theorem Ext2.Sized.pointers (hfs : fs.Sized) : 4 * (fs.blockSize / 4) = fs.blockSize :=
  Nat.mul_div_cancel' (Nat.dvd_trans (by decide) hfs.dvd)

theorem le32_congr {buf buf' : Buffer} {pos : Nat} (h : ∀ i < 4, buf (pos + i) = buf' (pos + i)) :
    le32 buf pos = le32 buf' pos := by
  have h0 := h 0 (by decide)
  have h1 := h 1 (by decide)
  have h2 := h 2 (by decide)
  have h3 := h 3 (by decide)
  simp only [le32, le16, Nat.add_zero] at *
  rw [h0, h1, h2, h3]

theorem readPointer_val (hd : d.Serves) (hfs : fs.Sized) (block : Nat) {index : Nat}
    (hi : index < fs.blockSize / 4) :
    (readPointer fs d block index).val = d.word fs.blockSize block index := by
  rw [readPointer, if_pos (kmalloc_of_serves hd hfs), readBlock_of_serves hd]
  have hp := hfs.pointers
  apply le32_congr
  intro i hi4
  rw [hfs.sectors, if_pos (by omega)]

/-- The pointers on the way to a block of a file, from the inode on, when the block is below
`12 + p + p * p`. -/
def Ext2Inode.pointers (inode : Ext2Inode) (d : Device) (blockSize logical : Nat) : List Nat :=
  let p := blockSize / 4
  if logical < 12 then [inode.block logical]
  else if logical - 12 < p then
    [inode.block 12, d.word blockSize (inode.block 12) (logical - 12)]
  else
    let next := d.word blockSize (inode.block 13) ((logical - 12 - p) / p)
    [inode.block 13, next, d.word blockSize next ((logical - 12 - p) % p)]

/-- What `get_inode_block` computes from the pointers: it does not test the first of several. -/
def followed : List Nat → Nat
  | [_, next, last] => if next = 0 then 0 else last
  | ptrs => ptrs.getLastD 0

theorem getInodeBlock_val (hd : d.Serves) (hfs : fs.Sized) (inode : Ext2Inode) {logical : Nat}
    (hl : logical < 12 + fs.blockSize / 4 + fs.blockSize / 4 * (fs.blockSize / 4)) :
    (getInodeBlock fs d inode logical).val =
      followed (inode.pointers d fs.blockSize logical) := by
  rw [getInodeBlock, Ext2Inode.pointers]
  by_cases hdirect : logical < 12
  · rw [if_pos hdirect, if_pos hdirect]
    rfl
  · rw [if_neg hdirect, if_neg hdirect]
    by_cases hsingle : logical - 12 < fs.blockSize / 4
    · rw [if_pos hsingle, if_pos hsingle]
      exact readPointer_val hd hfs _ hsingle
    · have hp : 0 < fs.blockSize / 4 := by
        have := hfs.pointers
        have := hfs.pos
        omega
      have hhigh : (logical - 12 - fs.blockSize / 4) / (fs.blockSize / 4) < fs.blockSize / 4 :=
        Nat.div_lt_of_lt_mul (by omega)
      rw [if_neg hsingle, if_neg hsingle]
      simp only [Checked.val_bind, readPointer_val hd hfs _ hhigh, Checked.val_ite,
        readPointer_val hd hfs _ (Nat.mod_lt _ hp)]
      rfl

/-! ### The bytes of a file -/

/-- The byte of a file at a position, with the block that `get_inode_block` finds for it. -/
def Ext2.fileByte (fs : Ext2) (d : Device) (inode : Ext2Inode) (pos : Nat) : UInt8 :=
  let block := (getInodeBlock fs d inode (pos / fs.blockSize % wrap32)).val
  if block = 0 then 0 else d.block fs.blockSize block (pos % fs.blockSize)

/-- The bytes of one pass lie in one block. -/
theorem block_add {bs offset j : Nat} (hj : offset % bs + j < bs) :
    (offset + j) / bs = offset / bs ∧ (offset + j) % bs = offset % bs + j := by
  have hsplit : offset + j = (offset % bs + j) + bs * (offset / bs) := by
    have := Nat.mod_add_div offset bs
    omega
  constructor
  · rw [hsplit, Nat.add_mul_div_left _ _ (by omega), Nat.div_eq_of_lt hj, Nat.zero_add]
  · rw [hsplit, Nat.add_mul_mod_self_left, Nat.mod_eq_of_lt hj]

theorem fileByte_add (inode : Ext2Inode) {offset j : Nat}
    (hj : offset % fs.blockSize + j < fs.blockSize) :
    fs.fileByte d inode (offset + j) =
      let block := (getInodeBlock fs d inode (offset / fs.blockSize % wrap32)).val
      if block = 0 then 0 else d.block fs.blockSize block (offset % fs.blockSize + j) := by
  rw [Ext2.fileByte, (block_add hj).1, (block_add hj).2]

theorem readDataLoop_val (hd : d.Serves) (hfs : fs.Sized) (inode : Ext2Inode)
    (passes : Nat) : ∀ offset count, count ≤ passes →
      (readDataLoop fs d inode passes offset count).val =
        (range count).map fun j => fs.fileByte d inode (offset + j) := by
  induction passes with
  | zero =>
    intro offset count hc
    obtain rfl := Nat.le_zero.mp hc
    rfl
  | succ passes ih =>
    intro offset count hc
    by_cases h0 : count = 0
    · subst h0
      rfl
    have hmod : offset % fs.blockSize < fs.blockSize := Nat.mod_lt _ hfs.pos
    generalize hcopy : min (fs.blockSize - offset % fs.blockSize) count = toCopy
    have hrest := ih (offset + toCopy) (count - toCopy) (by omega)
    have hcount : count = toCopy + (count - toCopy) := by omega
    have htail : (range count).map (fun j => fs.fileByte d inode (offset + j)) =
        (range toCopy).map (fun j => fs.fileByte d inode (offset + j)) ++
          (readDataLoop fs d inode passes (offset + toCopy) (count - toCopy)).val := by
      rw [hrest]
      conv_lhs => rw [hcount, range_add]
      simp only [map_append, map_map, Function.comp_def, Nat.add_assoc]
    have hhead : ∀ j ∈ range toCopy, offset % fs.blockSize + j < fs.blockSize := by
      intro j hj
      have := mem_range.mp hj
      omega
    rw [htail, map_congr_left fun j hj => fileByte_add inode (hhead j hj)]
    rw [readDataLoop, if_neg h0]
    simp only [Checked.val_bind, Checked.val_ite, Checked.val_pure, hcopy]
    by_cases hhole : (getInodeBlock fs d inode (offset / fs.blockSize % wrap32)).val = 0
    · rw [if_pos hhole]
      simp only [hhole, if_true, map_const', length_range]
    · rw [if_neg hhole, if_pos (kmalloc_of_serves hd hfs), readBlock_of_serves hd]
      simp only [Checked.val_bind, Checked.val_pure, hhole, if_false, hfs.sectors]
      congr 1
      apply map_congr_left
      intro j hj
      rw [if_pos (hhead j hj)]

/-- A read inside of a file gives its bytes, up to its end. -/
theorem readInodeData_val (hd : d.Serves) (hfs : fs.Sized) {inode : Ext2Inode}
    (hsize : inode.size < wrap32) {offset : Nat} (ho : offset < inode.size) (count : Nat) :
    (readInodeData fs d inode offset count).val =
      (range (min count (inode.size - offset))).map
        fun j => fs.fileByte d inode (offset + j) := by
  have hlow : offset % wrap32 = offset := Nat.mod_eq_of_lt (Nat.lt_trans ho hsize)
  rw [readInodeData, hlow, if_neg (Nat.not_le.mpr ho),
    readDataLoop_val hd hfs _ _ _ _ (Nat.le_refl _)]
  congr 2
  split <;> omega

/-! ### Holes -/

/-- A block of a file is read as the scheme of ext2 has it: a block with a zero pointer on the
way is a hole and reads as zeros, any other is found at its last pointer. -/
structure ReadsAsStored (fs : Ext2) (d : Device) (inode : Ext2Inode) (logical : Nat) : Prop where
  hole : 0 ∈ inode.pointers d fs.blockSize logical → (getInodeBlock fs d inode logical).val = 0
  zeros : 0 ∈ inode.pointers d fs.blockSize logical → ∀ offset count j, offset < inode.size →
    j < min count (inode.size - offset) → (offset + j) / fs.blockSize = logical →
    (readInodeData fs d inode offset count).val[j]? = some 0
  data : 0 ∉ inode.pointers d fs.blockSize logical →
    (inode.pointers d fs.blockSize logical).getLast? = some (getInodeBlock fs d inode logical).val

/-- If the pointer of the inode to a block of pointers is zero, then so is a pointer found by
taking block 0 of the disk for that block. -/
def ZeroPointerShows (d : Device) (blockSize : Nat) (inode : Ext2Inode) (logical : Nat) : Prop :=
  12 ≤ logical → (inode.pointers d blockSize logical).head? = some 0 →
    0 ∈ (inode.pointers d blockSize logical).tail

instance (d : Device) (blockSize : Nat) (inode : Ext2Inode) (logical : Nat) :
    Decidable (ZeroPointerShows d blockSize inode logical) :=
  inferInstanceAs (Decidable (_ → _))

/-- The pointers have one of the three shapes of the scheme. -/
theorem Ext2Inode.pointers_shape (inode : Ext2Inode) (d : Device) (bs logical : Nat) :
    (logical < 12 ∧ ∃ a, inode.pointers d bs logical = [a]) ∨
    (12 ≤ logical ∧ ∃ a b, inode.pointers d bs logical = [a, b]) ∨
    (12 ≤ logical ∧ ∃ a b c, inode.pointers d bs logical = [a, b, c]) := by
  rw [Ext2Inode.pointers]
  by_cases hdirect : logical < 12
  · rw [if_pos hdirect]
    exact .inl ⟨hdirect, _, rfl⟩
  · rw [if_neg hdirect]
    by_cases hsingle : logical - 12 < bs / 4
    · rw [if_pos hsingle]
      exact .inr (.inl ⟨Nat.le_of_not_lt hdirect, _, _, rfl⟩)
    · rw [if_neg hsingle]
      exact .inr (.inr ⟨Nat.le_of_not_lt hdirect, _, _, _, rfl⟩)

/-- The pointers are followed to a hole exactly if the first zero is not missed. -/
theorem followed_eq_zero_iff (inode : Ext2Inode) (d : Device) (bs logical : Nat) :
    (0 ∈ inode.pointers d bs logical → followed (inode.pointers d bs logical) = 0) ↔
      ZeroPointerShows d bs inode logical := by
  rw [ZeroPointerShows]
  rcases inode.pointers_shape d bs logical with
    ⟨hl, a, hp⟩ | ⟨hl, a, b, hp⟩ | ⟨hl, a, b, c, hp⟩
  · simp [hp, followed, Nat.not_le.mpr hl, eq_comm]
  · simp only [hp, followed, mem_cons, not_mem_nil, or_false, getLastD_cons,
      getLastD_nil, head?_cons, Option.some.injEq, tail_cons, hl, true_imp_iff]
    constructor
    · intro h ha
      exact (h (.inl ha.symm)).symm
    · rintro h (ha | hb)
      · exact (h ha.symm).symm
      · exact hb.symm
  · simp only [hp, followed, mem_cons, not_mem_nil, or_false, head?_cons,
      Option.some.injEq, tail_cons, hl, true_imp_iff]
    grind

theorem followed_of_nonzero (inode : Ext2Inode) (d : Device) (bs logical : Nat)
    (h : 0 ∉ inode.pointers d bs logical) :
    (inode.pointers d bs logical).getLast? = some (followed (inode.pointers d bs logical)) := by
  rcases inode.pointers_shape d bs logical with
    ⟨-, a, hp⟩ | ⟨-, a, b, hp⟩ | ⟨-, a, b, c, hp⟩
  · rw [hp]
    rfl
  · rw [hp]
    rfl
  · rw [hp] at h ⊢
    have hb : b ≠ 0 := by
      rintro rfl
      exact h (by simp)
    simp [followed, hb]

theorem holes_read_as_zeros_iff (hd : d.Serves) (hmount : (ext2Mount d).val = some fs)
    (buf : Buffer) (pos : Nat) {logical : Nat}
    (hl : logical < 12 + fs.blockSize / 4 + fs.blockSize / 4 * (fs.blockSize / 4)) :
    ReadsAsStored fs d (readInodeFields buf pos) logical ↔
      ZeroPointerShows d fs.blockSize (readInodeFields buf pos) logical := by
  have hfs := ext2Mount_sized hmount
  have hval := getInodeBlock_val hd hfs (readInodeFields buf pos) hl
  have hsize : (readInodeFields buf pos).size < wrap32 := le32_lt buf (pos + 4)
  generalize readInodeFields buf pos = inode at *
  rw [← followed_eq_zero_iff, ← hval]
  constructor
  · exact ReadsAsStored.hole
  · intro hzero
    refine ⟨hzero, ?_, ?_⟩
    · intro hhole offset count j ho hj hblock
      have hlogical : logical < wrap32 := by
        have := Nat.div_le_self (offset + j) fs.blockSize
        omega
      have hbyte : fs.fileByte d inode (offset + j) = 0 := by
        rw [Ext2.fileByte, hblock, Nat.mod_eq_of_lt hlogical]
        exact if_pos (hzero hhole)
      rw [readInodeData_val hd hfs hsize ho, List.getElem?_map,
        List.getElem?_range hj, Option.map_some, hbyte]
    · intro hdata
      rw [hval]
      exact followed_of_nonzero inode d fs.blockSize logical hdata

/-- A disk with a superblock of one group in block 1 and the bytes 1 in the boot block. -/
def bootDisk : Device where
  sector n i :=
    if n = 2 then
      if i = 4 ∨ i = 32 ∨ i = 40 then 8 else if i = 56 then 0x53 else if i = 57 then 0xEF else 0
    else if n < 2 then 1 else 0
  readable _ _ := true
  heap _ := true
  stray _ := 0

theorem bootDisk_serves : bootDisk.Serves := ⟨fun _ _ => rfl, fun _ => rfl⟩

/-- The file system mounted from it. -/
def bootFs : Ext2 := (ext2Mount bootDisk).val.get (by decide +kernel)

theorem bootFs_mounted : (ext2Mount bootDisk).val = some bootFs := (Option.some_get _).symm

/-- An inode of a file of 16 MiB with no blocks at all. -/
def emptyInode : Buffer := fun i => if i = 7 then 1 else 0

theorem holes_read_as_zeros_bootDisk :
    ReadsAsStored bootFs bootDisk (readInodeFields emptyInode 0) 5 :=
  (holes_read_as_zeros_iff bootDisk_serves bootFs_mounted emptyInode 0 (by decide +kernel)).mpr
    (by decide +kernel)

/-- Logical block 12 of the empty file is a hole, and `get_inode_block` finds a block for it. -/
theorem hole_reads_boot_block : bootDisk.Serves ∧ (ext2Mount bootDisk).val = some bootFs ∧
    0 ∈ (readInodeFields emptyInode 0).pointers bootDisk bootFs.blockSize 12 ∧
    (getInodeBlock bootFs bootDisk (readInodeFields emptyInode 0) 12).val = 0x01010101 := by
  refine ⟨bootDisk_serves, bootFs_mounted, ?_⟩
  decide +kernel

end Mmix.Fs
